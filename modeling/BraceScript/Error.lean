import BraceScript.Buffer
import BraceScript.Fault
import BraceScript.Evaluation
import BraceScript.Options.Normal
import BraceScript.Files

/-!
# Errors

Everything that can stop a script from being read or run, by cause.  `Error.message` is the
message of an error and `Error.text` puts the place before it if there is one.
-/

namespace BraceScript

/-- How far a declaration got before the block that has to follow. -/
inductive Stage where
  | keyword
  | name
  | version
deriving DecidableEq, Repr, Inhabited

/-- The word for a stage in messages. -/
def Stage.word : Stage → String
  | keyword => "keyword"
  | name => "namespace"
  | version => "version"

/-- A declaration without a block. -/
structure MissingBlock where
  declarator : String
  stage : Stage
  /-- The rest of the line where the block was expected. -/
  found : String
  place : Place
deriving DecidableEq, Repr

/-- An error. -/
inductive Error where
  | misconfigured (cause : Misconfiguration)
  | missingBlock (cause : MissingBlock)
  | unreadable (fault : Fault) (place : Place)
  | evaluation (fault : EvalFault)
  | unwritable (cause : Literal.Unwritable)
  | outsideBuffer (cause : OutsideBuffer)
  /-- A scope is needed and all scopes are closed. -/
  | noScope
  /-- An unknown option whose key is no text. -/
  | keyNotText
  /-- An integer of more digits than any integer may have. -/
  | integerTooLong
  /-- A registered thing that is no feature was to be used as one. -/
  | notFeature
  /-- A file that is needed cannot be read. -/
  | file (fault : FileFault)
  /-- A value stands where a configuration file must have a table. -/
  | notTable
  /-- The configured logging has an unknown level or a format without a field. -/
  | logging
  /-- The fuel of a reader is used up. -/
  | exhausted

namespace Error

/-- The message of an error. -/
def message : Error → String
  | misconfigured cause => cause.message
  | missingBlock cause =>
    "Expected a block after " ++ cause.declarator ++ " " ++ cause.stage.word ++ ", not: " ++
      cause.found
  | unreadable fault _ => fault.message
  | evaluation fault => fault.message
  | unwritable cause => cause.message
  | outsideBuffer cause => cause.message
  | noScope => "No scope is open"
  | keyNotText => "Option keys must be strings"
  | integerTooLong => Fault.integerTooLong.message
  | notFeature => "Not a syntax feature"
  | file fault => fault.message
  | notTable => "Expected a table"
  | logging => "Invalid logging configuration"
  | exhausted => Fault.exhausted.message

/-- The place of an error. -/
def place? : Error → Option Place
  | missingBlock cause => some cause.place
  | unreadable _ place => some place
  | _ => none

/-- The message of an error after its place. -/
def text (e : Error) : String :=
  match e.place? with
  | some place => place.text ++ "\n" ++ e.message
  | none => e.message

/-- The error is one of the script or of its configuration, and so one to report. -/
def isReported : Error → Bool
  | misconfigured _ | missingBlock _ | unreadable _ _ => true
  | evaluation fault => fault != .wrongArguments && fault != .endless
  | _ => false

/-- A refusal of options as an error. -/
def ofRefusal : Options.Refusal → Error
  | .invalid cause => .misconfigured cause
  | .keyNotText => .keyNotText
  | .integerTooLong => .integerTooLong
  | .exhausted => .exhausted

/-- A value without a literal as an error. -/
def ofUnwritable : Literal.Unwritable → Error
  | .integerTooLong => .integerTooLong
  | cause => .unwritable cause

end Error

end BraceScript
