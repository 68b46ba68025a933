import BraceScript.Namespaces
import BraceScript.Name

/-!
# Running programs

A program is evaluated against the packages that reading it has produced.  Only versions change.
A call whose target is known runs it; any other call looks its name up when it runs.  Evaluation
recurses on the program; a subroutine found by name is run with fuel, and as many units as there
are functions suffice for every program that ends, since a subroutine that is reached by name
again while it runs is reached for ever.
-/

namespace BraceScript

/-- Why a program stops. -/
inductive EvalFault where
  | undefined (package name : String)
  /-- A subroutine was called with arguments. -/
  | takesNoArguments (package name : String)
  /-- A host function or a keyword's function was called with the wrong number of arguments. -/
  | wrongArguments
  /-- What was to be run is no node of a program but an object of another kind. -/
  | notNode (kind : String)
  /-- A subroutine goes on calling itself. -/
  | endless
deriving DecidableEq, Repr

/-- The message of a fault. -/
def EvalFault.message : EvalFault → String
  | undefined package name => "Undefined subroutine &" ++ package ++ "::" ++ name
  | takesNoArguments package name =>
    "Subroutine &" ++ package ++ "::" ++ name ++ " takes no arguments"
  | wrongArguments => "Wrong number of arguments"
  | notNode kind => "Unknown node type: " ++ kind
  | endless => "Evaluation did not end"

/-- An evaluation with a result of type `α`; its state is the packages. -/
abbrev Evaluation := EStateM EvalFault Namespaces

/-- Runs a function on arguments. -/
abbrev Application := Function → List Value → Evaluation Value

mutual

/-- The value of a node.  `applyNamed` runs the functions that are found by name. -/
def evalNode (applyNamed : Application) : Node → Evaluation Value
  | .literal value => return value
  | .list items => return .list (← evalNodes applyNamed items)
  | .call _ _ arguments (some f) => do
    applyWith applyNamed f (← evalNodes applyNamed arguments)
  | .call name package arguments none => do
    let (package, name) := Name.split name package
    match (← get).function? package name with
    | none => throw (.undefined package name)
    | some f => applyNamed f (← evalNodes applyNamed arguments)
  | .version package literal => do
    modify fun ns => ns.setVersion package literal
    return .text literal
  | .block statements | .doBlock statements => evalBlock applyNamed .null statements

/-- The values of nodes, from left to right. -/
def evalNodes (applyNamed : Application) : List Node → Evaluation (List Value)
  | [] => return []
  | node :: nodes => do
    let value ← evalNode applyNamed node
    let values ← evalNodes applyNamed nodes
    return value :: values

/-- The value of the last statement, which is `last` if there are none. -/
def evalBlock (applyNamed : Application) (last : Value) : List Node → Evaluation Value
  | [] => return last
  | statement :: statements => do
    let value ← evalNode applyNamed statement
    evalBlock applyNamed value statements

/-- The value of a function for arguments. -/
def applyWith (applyNamed : Application) : Application
  | .subroutine name package body, values =>
    if values.isEmpty then evalBlock applyNamed .null body
    else throw (.takesNoArguments package name)
  | .native native, values => match native.run values with
    | some value => return value
    | none => throw .wrongArguments
  | .trampoline outcome, values => match values with
    | [package, result] => return outcome.value package result
    | _ => throw .wrongArguments

end

/-- Runs a function with fuel for the calls by name that are inside one another. -/
def applyWithin : Nat → Application
  | 0, _, _ => throw .endless
  | fuel + 1, f, values => applyWith (applyWithin fuel) f values

/-- The number of functions of all packages. -/
def Namespaces.functionCount (ns : Namespaces) : Nat :=
  Table.total (fun row => row.2.functions.length) ns

/-- The value of a node. -/
def Node.eval (node : Node) : Evaluation Value := fun ns =>
  evalNode (applyWithin (ns.functionCount + 1)) node ns

/-- Something that may be given to be run. -/
inductive Runnable where
  | node (node : Node)
  | subroutine
  | value (value : Value)

/-- Runs a node, and refuses anything else. -/
def Runnable.eval : Runnable → Evaluation Value
  | node n => n.eval
  | subroutine => throw (.notNode "Subroutine")
  | value v => throw (.notNode v.kind)

end BraceScript
