import BraceScript.Parser.Grammar

/-!
# Compiling and running scripts

`compile` reads a script, with features installed before it as if it began with `use`
statements; the result can be run any number of times.
-/

namespace BraceScript

/-- A script that has been read. -/
structure Compiled where
  program : List Node
  namespaces : Namespaces
  /-- The text with every declaration expanded. -/
  source : String

/-- What a script starts from. -/
structure Setting where
  file : String := "<string>"
  namespaces : Namespaces := Namespaces.initial
  features : Registry := Registry.standard
  /-- The package in which the script starts. -/
  package : String := Namespaces.startPackage
  /-- Features to install into that package first, with their options. -/
  prelude : List (String × Value) := []

/-- Installs the features of a prelude. -/
def Parse.installPrelude (package : String) (rows : List (String × Value)) : Parse Unit :=
  rows.forM fun row => do
    let feature ← orMisconfigured ((← get).features.require row.1)
    install feature package row.2

/-- Installs the prelude and reads a whole script. -/
def Parse.script (setting : Setting) : Parse (List Node) := do
  installPrelude setting.package setting.prelude
  program

/-- The parser at the start of a script. -/
def Setting.parser (setting : Setting) (text : String) : Parser :=
  Parser.start ⟨text.toList, setting.file⟩ setting.namespaces setting.features setting.package

/-- Reads a script. -/
def compile (text : String) (setting : Setting := {}) : Except Error Compiled :=
  match Parse.script setting (setting.parser text) with
  | .ok program p => .ok ⟨program, p.namespaces, String.ofList p.buffer.text⟩
  | .error e _ => .error e

/-- Runs a script that has been read. -/
def Compiled.run (compiled : Compiled) : EStateM.Result EvalFault Namespaces Value :=
  (Node.block compiled.program).eval compiled.namespaces

end BraceScript
