import BraceScript.Options.Basic
import BraceScript.Feature

/-!
# Statements at the top of a declared block

A declared block opens its package, sets the version that the declaration gave, and installs the
keyword and the inner features again, so that declarations can be nested.  The statements of the
feature and of the `preamble` option follow.  A placeholder expression ends the list.
-/

namespace BraceScript.Preamble

/-- The statement that opens a package. -/
def package (name : String) : List String := ["package " ++ name]

/-- The statement that sets the version, if there is one. -/
def version : Option String → List String
  | none => []
  | some literal => ["version " ++ literal]

/-- The statement that installs a keyword again with the same options. -/
def useFeature (feature : String) (options : KeywordOptions) :
    Except Literal.Unwritable String := do
  return "use " ++ feature ++ " " ++ String.ofList (← Literal.write options.toValue)

/-- The literals of an inner feature in the arguments of `use syntax`. -/
def innerArguments (entry : InnerFeature) : Except Literal.Unwritable (List (List Char)) :=
  match entry.options with
  | .null => .ok [Literal.quote entry.name]
  | options => do return [Literal.quote entry.name, ← Literal.write options]

/-- The statement that installs the inner features, if there are any. -/
def useInner (inner : List InnerFeature) : Except Literal.Unwritable (List String) := do
  if inner.isEmpty then return []
  let arguments ← inner.mapM innerArguments
  return ["use syntax " ++ String.ofList (Literal.commaList arguments.flatten)]

/-- The statements that make the keyword and the inner features available in the block. -/
def propagation (feature : String) (options : KeywordOptions) :
    Except Literal.Unwritable (List String) := do
  return (← useFeature feature options) :: (← useInner options.inner)

/-- The statements for a block of the package `name`, the `preamble` option left out. -/
def default (feature : BlockFeature) (name : String) (literal : Option String)
    (options : KeywordOptions) : Except Literal.Unwritable (List String) := do
  return package name ++ version literal ++ (← propagation feature.name options) ++ feature.extra

/-- All statements for a block of the package `name`. -/
def generate (feature : BlockFeature) (name : String) (literal : Option String)
    (options : KeywordOptions) : Except Literal.Unwritable (List String) := do
  return (← default feature name literal options) ++ options.preamble

/-- The expression that ends the statements. -/
def placeholder : String := "()"

/-- Statements as source text. -/
def render (statements : List String) : String :=
  String.intercalate "; " (statements ++ [placeholder]) ++ ";"

end BraceScript.Preamble

namespace BraceScript.BlockFeature

/-- The compile hook that closes a declaration when its block ends. -/
def endHook : String := "scope_end"

/-- The names of the compile hooks, which `begin` runs. -/
def hooks (_ : BlockFeature) : List String := [endHook]

/-- The statement that a block starts with, so that its declaration is closed when it ends. -/
def trigger (feature : BlockFeature) : String :=
  "begin " ++ feature.name ++ "." ++ endHook ++ "; "

end BraceScript.BlockFeature
