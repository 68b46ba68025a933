import BraceScript.Literal.Writer

/-!
# Refused options

Why the options of a keyword, the names after `use syntax`, or a configuration file are refused.
Every cause blames one option (`Misconfiguration.option`).
-/

namespace BraceScript

/-- The options that a refusal can blame; `whole` stands for the options as a whole. -/
inductive OptionName where
  | whole
  | spelling
  | inner
  | preamble
deriving DecidableEq, Repr

/-- The key under which an option is given. -/
def OptionName.key : OptionName → String
  | whole => "options"
  | spelling => "as"
  | inner => "inner"
  | preamble => "preamble"

/-- A step on the way to a value inside configuration data. -/
inductive DataStep where
  | key (k : Value)
  | index (i : Nat)
  | label (name : String)

/-- What is wrong with a value inside configuration data. -/
inductive DataKind where
  | unknownKey
  /-- A key of a table is no text. -/
  | invalidKey
  | notText
  | notList
  | notMapping
  | notTable
deriving DecidableEq, Repr

/-- A wrong value inside configuration data. -/
structure DataFault where
  path : List DataStep
  kind : DataKind

/-- Why options or configuration data are refused. -/
inductive Misconfiguration where
  /-- Options that are neither absent nor a mapping nor a list; `feature` names the kind of
  feature that they are for. -/
  | notOptions (feature : String)
  | spelledTwice (feature : String)
  | unknownOptions (feature : String) (names : List String)
  | innerNotList
  | innerEntry (entry : Value)
  | innerUnwritable (name : String) (cause : Literal.Unwritable)
  | innerInvalid (name : String) (cause : Misconfiguration)
  | spellingNotText
  | spelling (spelling feature : String)
  | preambleNotTexts
  | blocksNotMapping (feature : String)
  | nameTaken (name feature : String)
  | unknownFeature (name : String)
  | namesNotList
  | notName (item : Value)
  /-- A configuration file that is no TOML document. -/
  | invalidToml (path : String)
  | invalidData (source : String) (faults : List DataFault)

namespace Misconfiguration

/-- The option to blame. -/
def option : Misconfiguration → OptionName
  | spelledTwice _ | spellingNotText | spelling _ _ => .spelling
  | innerNotList | innerEntry _ | innerUnwritable _ _ | innerInvalid _ _ => .inner
  | preambleNotTexts => .preamble
  | _ => .whole

/-- The message can be formed: it shows no value that cannot be shown. -/
def isShowable : Misconfiguration → Bool
  | innerEntry value | notName value => value.isShowable
  | _ => true

/-- The message of a refusal.  For configuration files it ends with the name of the file. -/
def message : Misconfiguration → String
  | notOptions feature =>
    "Options for " ++ feature ++ " expected to be a mapping or a list"
  | spelledTwice feature => "Options for " ++ feature ++ " give both as and alias_name"
  | unknownOptions feature names =>
    "Unknown options for " ++ feature ++ ": " ++ Value.commaList names
  | innerNotList => "The inner option only accepts lists"
  | innerEntry entry =>
    "Inner features must be names or [name, options] pairs, not: " ++ entry.shown
  | innerUnwritable name cause =>
    "Options for inner feature " ++ name ++ " cannot be written out: " ++ cause.message
  | innerInvalid name cause =>
    "Invalid options for inner feature " ++ name ++ ": " ++ cause.message
  | spellingNotText => "The as option only accepts strings"
  | spelling word feature =>
    "The string '" ++ word ++ "' cannot be used as keyword for " ++ feature ++ " syntax"
  | preambleNotTexts => "The preamble option only accepts lists of strings"
  | blocksNotMapping feature => "Blocks for " ++ feature ++ " expected to be a mapping"
  | nameTaken name feature =>
    "Syntax feature name '" ++ name ++ "' is already taken by " ++ feature
  | unknownFeature name => "Unknown syntax feature: " ++ name
  | namesNotList => "Options for syntax expected to be a list of feature names"
  | notName item => "Expected a feature name, not: " ++ item.shown
  | invalidToml path => "Invalid TOML in " ++ path
  | invalidData source _ => "Invalid configuration in " ++ source

end Misconfiguration

end BraceScript
