import BraceScript.CommandLine.Reply

/-!
# The command line

Reads the files that a request can look at and writes the reply to it.
-/

namespace BraceScript.CommandLine

/-- Reads what is found under a path of the file system. -/
def readPath (path : Path) : IO (Except FileFault String) := do
  let file := (← IO.currentDir) / path.text
  if ← file.isDir then return .error .isDirectory
  if !(← file.pathExists) then return .error .missing
  let text ← IO.FS.readFile file
  return .ok (String.ofList (Text.withLineFeeds text.toList))

/-- Reads the files under the given paths. -/
def readPaths (paths : List Path) : IO Files := do
  let found ← paths.mapM fun path => return (path, ← readPath path)
  return fun path => (found.lookup path).getD (.error .missing)

end BraceScript.CommandLine

open BraceScript.CommandLine

/-- The program. -/
def main (arguments : List String) : IO UInt32 := do
  let request := Request.ofArguments? arguments
  let files ← readPaths (request.elim [] Request.paths)
  match answer files arguments with
  | .ok reply =>
    IO.print reply.output
    IO.eprint reply.complaint
    return reply.status.toUInt32
  | .error e =>
    IO.eprintln e.text
    return 1
