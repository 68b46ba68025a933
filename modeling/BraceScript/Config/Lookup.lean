import BraceScript.Config.Basic
import BraceScript.Error
import BraceScript.Text.Lines
import BraceScript.Toml.Document

/-!
# Finding and loading configuration files

A configuration stands in a file `modscope.toml`, or in the table `tool.modscope` of a file
`pyproject.toml`.  The file that counts for a script is the nearest one, from the directory of
the script upwards.  Looking for it goes by the text of a `pyproject.toml`, which must contain the
start of a header of the table; loading goes by what the file denotes.
-/

namespace BraceScript.Config

/-- The name of a file that is a configuration. -/
def ownName : String := "modscope.toml"

/-- The name of a file that can have a configuration in it. -/
def projectName : String := "pyproject.toml"

/-- The text that a project file must contain to be looked into. -/
def marker : List Char := "[tool.modscope".toList

/-- The table that a text denotes; `path` is where it comes from. -/
def tableOf (path : Path) (text : String) : Except Error (Table Value Value) :=
  match Toml.parse text with
  | .ok rows => .ok rows
  | .error .malformed => .error (.misconfigured (.invalidToml path.text))
  | .error .integerTooLong => .error .integerTooLong
  | .error .exhausted => .error .exhausted

/-- The value of a key, which is an empty table if there is none.  Only a table can be asked. -/
def tableAt (name : String) : Value → Except Error Value
  | .mapping rows => .ok ((Table.get? rows (.text name)).getD (.mapping []))
  | _ => .error .notTable

/-- The data of a configuration in a table that comes from a file. -/
def dataOf (path : Path) (rows : Table Value Value) : Except Error Value :=
  if path.name = projectName then do
    tableAt "modscope" (← tableAt "tool" (.mapping rows))
  else .ok (.mapping rows)

/-- Loads a configuration file. -/
def load (files : Files) (path : Path) : Except Error Config := do
  let text ← (files path).mapError Error.file
  let data ← dataOf path (← tableOf path text)
  (ofData data path.text).mapError Error.misconfigured

/-- The configuration file of a directory. -/
def findIn (files : Files) (directory : Path) : Option Path :=
  let own := directory.child ownName
  let project := directory.child projectName
  if files.isFile own then some own
  else match files project with
    | .ok text => if Text.occurs marker text.toList then some project else none
    | .error _ => none

/-- The directory in which the search for a path begins: the path itself, or where it lies. -/
def baseOf (files : Files) (start : Path) : Path :=
  if files.isDirectory start then start else start.parent

/-- The directories in which a configuration is looked for, nearest first. -/
def directoriesFrom (files : Files) (start : Path) : List Path :=
  let directory := baseOf files start
  directory :: directory.parents

/-- The configuration file that counts for a path. -/
def find (files : Files) (start : Path) : Option Path :=
  (directoriesFrom files start).findSome? (findIn files)

/-- The configuration in the given file if there is one, else in the one that counts for a path,
else the default one. -/
def resolve (files : Files) (explicit : Option Path) (start : Path) : Except Error Config :=
  match explicit with
  | some path => load files path
  | none => match find files start with
    | some path => load files path
    | none => .ok {}

end BraceScript.Config
