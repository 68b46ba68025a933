import BraceScript.Config.Lookup

/-!
# Releases

The version of this program, and the version that a project file gives for it.
-/

namespace BraceScript.Release

/-- The name under which the program is released. -/
def name : String := "modscope"

/-- The version of this program. -/
def version : String := "0.1.0"

/-- The version in a project file, if the path is that of a project file of this program. -/
def ofProject (files : Files) (path : Path) : Except Error (Option Value) :=
  match files path with
  | .error _ => .ok none
  | .ok text => match Config.tableOf path text with
    | .error (.misconfigured _) => .ok none
    | .error e => .error e
    | .ok rows => match Config.tableAt "project" (.mapping rows) with
      | .ok (.mapping project) =>
        if (Table.get? project (.text "name")).any (· == .text name) then
          .ok (Table.get? project (.text "version"))
        else .ok none
      | .ok _ => .error .notTable
      | .error e => .error e

end BraceScript.Release
