/-!
# Version literals

A version is a list of components separated by points.  A component is made of digits and
underscores and both starts and ends with a digit, as in `7`, `1.23` or `2_0.0`.  `match?` reads
the longest version at the start of a text; `isVersion` recognises whole texts.
-/

namespace BraceScript.Version

/-- The rest of a version after a digit, when `held` underscores have been seen since: they
belong to it only if a digit follows them. -/
def tail : Nat → List Char → List Char
  | _, [] => []
  | held, c :: rest =>
    if c.isDigit then List.replicate held '_' ++ c :: tail 0 rest
    else if c = '_' then tail (held + 1) rest
    else if c = '.' ∧ held = 0 then match rest with
      | d :: rest' => if d.isDigit then '.' :: d :: tail 0 rest' else []
      | [] => []
    else []

/-- The longest version that a text starts with, if it starts with one. -/
def literal? : List Char → Option (List Char)
  | [] => none
  | c :: rest => if c.isDigit then some (c :: tail 0 rest) else none

/-- The longest version at the start of a text, and what follows it. -/
def match? (text : List Char) : Option (List Char × List Char) :=
  (literal? text).map fun literal => (literal, text.drop literal.length)

/-- Digits and underscores, with a digit at both ends. -/
def isComponent (text : List Char) : Bool :=
  text.all (fun c => c.isDigit || c == '_') &&
    text.head?.any Char.isDigit && text.getLast?.any Char.isDigit

/-- The parts of a text between its points. -/
def components : List Char → List (List Char)
  | [] => [[]]
  | c :: rest =>
    if c = '.' then [] :: components rest
    else match components rest with
      | [] => [[c]]
      | part :: parts => (c :: part) :: parts

/-- The whole text is a version. -/
def isVersion (text : List Char) : Bool := (components text).all isComponent

end BraceScript.Version
