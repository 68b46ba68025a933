import BraceScript.Table
import BraceScript.Misconfiguration

/-!
# Syntax features

A script makes a feature available by `use`.  A block feature installs a keyword that declares
blocks.  The feature `syntax` installs other features by name.  Any other thing may hold a name
in the registry too, without being usable.
-/

namespace BraceScript

/-- What a declaration evaluates to when the program runs. -/
inductive Outcome where
  /-- The name of the declared package. -/
  | package
  /-- The name of the package and the value of the block. -/
  | pair
deriving DecidableEq, Repr

/-- The value of a declaration of the package `name` whose block evaluates to `result`. -/
def Outcome.value : Outcome → (name result : Value) → Value
  | .package, name, _ => name
  | .pair, name, result => .tuple [name, result]

/-- A feature that installs a keyword for declared blocks. -/
structure BlockFeature where
  /-- The kind of feature, which messages name. -/
  kind : String
  /-- The name under which the feature is registered. -/
  name : String
  /-- The spelling of the keyword when the options give none. -/
  keyword : String
  outcome : Outcome := .package
  /-- Statements that follow the default ones at the top of every block. -/
  extra : List String := []
deriving DecidableEq, Repr

/-- The feature behind `use module`. -/
def BlockFeature.standard : BlockFeature where
  kind := "ModuleFeature"
  name := "module"
  keyword := "module"

/-- A registered feature. -/
inductive Feature where
  | block (feature : BlockFeature)
  /-- The feature that installs others by name. -/
  | dispatcher
  /-- A thing of some kind that has a name and nothing else. -/
  | bare (kind name : String)
deriving DecidableEq, Repr

namespace Feature

/-- The kind of a feature. -/
def kind : Feature → String
  | block feature => feature.kind
  | dispatcher => "SyntaxDispatcher"
  | bare kind _ => kind

/-- The name under which a feature is registered. -/
def name : Feature → String
  | block feature => feature.name
  | dispatcher => "syntax"
  | bare _ name => name

end Feature

/-- Features by name. -/
abbrev Registry := Table String Feature

namespace Registry

/-- Registers a feature under its name, in place of any other of that name. -/
def register (registry : Registry) (feature : Feature) : Registry :=
  Table.put registry feature.name feature

/-- A registry with the feature `syntax` alone. -/
def empty : Registry := register [] .dispatcher

/-- A registry with the features `syntax` and `module`. -/
def standard : Registry := register empty (.block .standard)

/-- Registers a feature unless one of the same kind already has its name. -/
def provide (registry : Registry) (feature : Feature) : Except Misconfiguration Registry :=
  match Table.get? registry feature.name with
  | none => .ok (registry.register feature)
  | some registered =>
    if registered.kind = feature.kind then .ok registry
    else .error (.nameTaken feature.name registered.kind)

/-- The feature of a name. -/
def require (registry : Registry) (name : String) : Except Misconfiguration Feature :=
  match Table.get? registry name with
  | some feature => .ok feature
  | none => .error (.unknownFeature name)

/-- The registered names in alphabetical order. -/
def names (registry : Registry) : List String :=
  (Table.keys registry).mergeSort fun a b => a ≤ b

end Registry

/-! ### The names after `use syntax` -/

/-- Names paired with the options that follow them, from a list of items.  `named` holds the
pairs so far, last first. -/
def pairItems : List (String × Value) → List Value → Except Misconfiguration (List (String × Value))
  | named, [] => .ok named.reverse
  | named, .text name :: items => pairItems ((name, .null) :: named) items
  | (name, .null) :: named, item :: items => pairItems ((name, item) :: named) items
  | _, item :: _ => .error (.notName item)

/-- The features that the options of `syntax` name, each with its options. -/
def featurePairs : Value → Except Misconfiguration (List (String × Value))
  | .null => .ok []
  | .text name => .ok [(name, .null)]
  | .list items | .tuple items => pairItems [] items
  | _ => .error .namesNotList

end BraceScript
