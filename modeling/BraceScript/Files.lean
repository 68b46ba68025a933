import BraceScript.Path

/-!
# Files

What a program can see of the files around it: for every path the text that it finds there, or
why it finds none.
-/

namespace BraceScript

/-- Why a path gives no text. -/
inductive FileFault where
  | missing
  | isDirectory
  /-- The path leads through something that is no directory. -/
  | notDirectory
deriving DecidableEq, Repr

/-- The message of a path that gives no text. -/
def FileFault.message : FileFault → String
  | missing => "No such file or directory"
  | isDirectory => "Is a directory"
  | notDirectory => "Not a directory"

/-- What is found under each path. -/
abbrev Files := Path → Except FileFault String

namespace Files

/-- The path is that of a file. -/
def isFile (files : Files) (path : Path) : Bool := (files path).isOk

/-- The path is that of a directory. -/
def isDirectory (files : Files) (path : Path) : Bool :=
  match files path with
  | .error .isDirectory => true
  | _ => false

end Files

end BraceScript
