/-!
# Paths of files

A path is an anchor, which is empty for relative paths, and a list of names.  Reading a path drops
empty names and single dots; two dots stay, because what they lead to depends on the files.
-/

namespace BraceScript

/-- A path. -/
structure Path where
  /-- The slashes that an absolute path starts with. -/
  anchor : String
  names : List String
deriving DecidableEq, Repr, Inhabited

namespace Path

/-- The anchor of a path that starts with a number of slashes: two are kept, more are one. -/
def anchorOf : (slashes : Nat) → String
  | 0 => ""
  | 2 => "//"
  | _ => "/"

/-- The path that a text denotes. -/
def ofText (text : String) : Path where
  anchor := anchorOf (text.toList.takeWhile (· == '/')).length
  names := ((text.toList.splitOn '/').map String.ofList).filter fun name =>
    name != "" && name != "."

/-- The text of a path; the path without anchor and names is a dot. -/
def text (path : Path) : String :=
  let text := path.anchor ++ String.intercalate "/" path.names
  if text = "" then "." else text

/-- The last name of a path. -/
def name (path : Path) : String := path.names.getLast?.getD ""

/-- The path without its last name. -/
def parent (path : Path) : Path := { path with names := path.names.dropLast }

/-- A path inside a directory. -/
def child (path : Path) (name : String) : Path := { path with names := path.names ++ [name] }

/-- The directories above a path, nearest first. -/
def parents (path : Path) : List Path :=
  ((List.range path.names.length).map fun count =>
    { path with names := path.names.take count }).reverse

end Path

end BraceScript
