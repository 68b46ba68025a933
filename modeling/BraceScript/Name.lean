import BraceScript.Text.CharClass

/-!
# Qualified names

A qualified name such as `Foo::Bar::baz` names the function `baz` of the package `Foo::Bar`.
-/

namespace BraceScript.Name

/-- The text before the last `::` and the text after it. -/
def splitLast : List Char → Option (List Char × List Char)
  | [] => none
  | c :: rest => match splitLast rest with
    | some (head, tail) => some (c :: head, tail)
    | none => match c, rest with
      | ':', ':' :: tail => some ([], tail)
      | _, _ => none

/-- The package and the bare name that a name stands for inside `package`. -/
def split (name package : String) : String × String :=
  match splitLast name.toList with
  | some (head, tail) => (String.ofList head, String.ofList tail)
  | none => (package, name)

/-- The name has a package of its own. -/
def isQualified (name : String) : Bool := (splitLast name.toList).isSome

end BraceScript.Name
