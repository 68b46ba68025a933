import BraceScript.CommandLine.Arguments
import BraceScript.Config.Lookup

/-!
# Requests

What the arguments of the command line ask for.
-/

namespace BraceScript.CommandLine

/-- What to do with a script. -/
inductive Command where
  | run
  | expand
deriving DecidableEq, Repr

/-- The command of a name. -/
def Command.ofName? (name : String) : Option Command :=
  if name = "run" then some .run
  else if name = "expand" then some .expand
  else none

/-- A request. -/
inductive Request where
  | version
  | help
  | script (command : Command) (path : Path) (config : Option Path)
deriving DecidableEq, Repr

namespace Request

/-- The request of a command with its arguments; the last of several configurations counts. -/
def ofCommand? (command : Command) (arguments : List String) : Option Request := do
  let arguments ← sortArguments [.config, .help] true arguments
  if arguments.given.any (·.1 == .help) then return .help
  let configs := arguments.given.map Prod.snd
  match arguments.positional with
  | [path] => return .script command (Path.ofText path) (configs.getLast?.map Path.ofText)
  | _ => none

/-- The request of arguments, unless they are misused. -/
def ofArguments? (arguments : List String) : Option Request := do
  let arguments ← sortArguments [.version, .help] false arguments
  match arguments.given, arguments.positional with
  | (.help, _) :: _, _ => return .help
  | _ :: _, _ => return .version
  | [], name :: arguments => ofCommand? (← Command.ofName? name) arguments
  | [], [] => none

/-- The paths of all files that answering a request can look at. -/
def paths : Request → List Path
  | script _ path config =>
    let directories := path.parent :: path.parent.parents
    [path] ++ config.toList ++ directories.flatMap fun directory =>
      [directory.child Config.ownName, directory.child Config.projectName]
  | _ => []

end Request

end BraceScript.CommandLine
