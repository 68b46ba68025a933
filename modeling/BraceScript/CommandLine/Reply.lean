import BraceScript.CommandLine.Request
import BraceScript.Config.Logging
import BraceScript.Release
import BraceScript.Script

/-!
# Replies

What the program answers to a request: the text of an expanded script, the result of running one,
or the error of a script or of its configuration.  Other errors are not answered.
-/

namespace BraceScript.CommandLine

/-- A reply. -/
inductive Reply where
  | line (text : String)
  | noScript (path : Path)
  | refused (cause : Error)
  | help
  /-- The arguments make no request. -/
  | misused

namespace Reply

/-- The status with which the program ends. -/
def status : Reply → Nat
  | line _ | help => 0
  | noScript _ | refused _ => 1
  | misused => 2

/-- A short description of the arguments. -/
def usage : String :=
  "usage: " ++ Release.name ++ " --version | (run | expand) [--config FILE] SCRIPT"

/-- What is written as the answer. -/
def output : Reply → String
  | line text => text ++ "\n"
  | help => usage ++ "\n"
  | _ => ""

/-- What is written as the cause of a failure. -/
def complaint : Reply → String
  | noScript path => "No such script: " ++ path.text ++ "\n"
  | refused cause => cause.text ++ "\n"
  | misused => usage ++ "\n"
  | _ => ""

end Reply

/-- The line that a command gives for a script with the given text. -/
def perform (files : Files) (command : Command) (path : Path) (explicit : Option Path)
    (text : String) : Except Error String := do
  let config ← Config.resolve files explicit path
  if !config.hasValidLogging then throw .logging
  let compiled ← compile text
    { file := path.text, package := config.package, prelude := config.prelude }
  match command with
  | .expand => return compiled.source
  | .run => match compiled.run with
    | .ok value _ => return value.shown
    | .error fault _ => throw (.evaluation fault)

/-- The reply to a request. -/
def reply (files : Files) : Request → Except Error Reply
  | .version => .ok (.line (Release.name ++ " " ++ Release.version))
  | .help => .ok .help
  | .script command path explicit => match files path with
    | .error _ => .ok (.noScript path)
    | .ok text => match perform files command path explicit text with
      | .ok line => .ok (.line line)
      | .error e => if e.isReported then .ok (.refused e) else .error e

/-- The reply to arguments. -/
def answer (files : Files) (arguments : List String) : Except Error Reply :=
  match Request.ofArguments? arguments with
  | some request => reply files request
  | none => .ok .misused

end BraceScript.CommandLine
