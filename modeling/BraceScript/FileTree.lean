import BraceScript.Files
import BraceScript.Table
import BraceScript.Text.Lines

/-!
# Trees of files

A tree holds files with their texts below the directory in which a program works.  A directory
exists where a file lies below it.  A path is followed name by name, so that two dots lead out of
a directory only if it exists; nothing is seen outside the tree.
-/

namespace BraceScript

/-- Texts by the names that lead to their file. -/
abbrev FileTree := Table (List String) String

namespace FileTree

/-- The tree of files given by path and text; a later file replaces an earlier one. -/
def ofFiles (files : List (String × String)) : FileTree :=
  Table.ofRows (files.map fun (path, text) => ((Path.ofText path).names, text))

/-- The names lead to a directory. -/
def isDirectory (tree : FileTree) (names : List String) : Bool :=
  names.isEmpty || tree.any fun row => names.isPrefixOf row.1 && names != row.1

/-- Where names lead from the place `here`. -/
def follow (tree : FileTree) (here : List String) : List String → Except FileFault (List String)
  | [] => .ok here
  | name :: names =>
    if !isDirectory tree here then
      .error (if Table.contains tree here then .notDirectory else .missing)
    else if name = ".." then
      if here.isEmpty then .error .missing else follow tree here.dropLast names
    else follow tree (here ++ [name]) names

/-- What is found under each path; the ends of lines in texts are line feeds. -/
def files (tree : FileTree) : Files := fun path =>
  if path.anchor ≠ "" then .error .missing
  else match follow tree [] path.names with
    | .error fault => .error fault
    | .ok names => match Table.get? tree names with
      | some text => .ok (String.ofList (Text.withLineFeeds text.toList))
      | none => .error (if isDirectory tree names then .isDirectory else .missing)

end FileTree

end BraceScript
