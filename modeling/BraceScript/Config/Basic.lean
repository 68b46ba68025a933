import BraceScript.Misconfiguration
import BraceScript.Table

/-!
# Configuration

A configuration names the package in which a script starts, the features to install before it,
and how to log.  `Config.ofData` reads it from a table of data and finds every fault in it, not
only the first.
-/

namespace BraceScript

/-- A configuration. -/
structure Config where
  package : String := "main"
  /-- The least level of the records that are logged. -/
  level : String := "WARNING"
  /-- The format of a logged record. -/
  format : String := "%(asctime)s [%(levelname)s] %(name)s: %(message)s"
  /-- The features to install first, with their options. -/
  prelude : List (String × Value) := []
deriving Inhabited

namespace Config

/-! ### Values that are taken for others -/

/-- The text that a value counts as: its own, or that between the quotes of bytes. -/
def textOf? : Value → Option String
  | .text s => some s
  | .foreign "bytes" shown => some (String.ofList (shown.toList.drop 2).dropLast)
  | _ => none

/-- The list that a value counts as: lists, tuples, the empty set, and the fields of an inner
feature or of a record. -/
def itemsOf? : Value → Option (List Value)
  | .list items | .tuple items => some items
  | .foreign "set" "set()" => some []
  | .inner name options =>
    some [.tuple [.text "name", .text name], .tuple [.text "options", options]]
  | .record spelling entries preamble =>
    some [.tuple [.text "alias_name", .text spelling],
      .tuple [.text "inner", .tuple (entries.map fun entry => .inner entry.1 entry.2)],
      .tuple [.text "preamble", .tuple (preamble.map .text)]]
  | _ => none

/-! ### Checks -/

/-- A check of data, which collects faults and goes on. -/
abbrev Check := StateM (List DataFault)

/-- Notes a fault. -/
def note (path : List DataStep) (kind : DataKind) : Check Unit :=
  modify fun faults => faults ++ [⟨path, kind⟩]

/-- Notes the keys of a table that mean nothing. -/
def checkKeys (path : List DataStep) (known : List String) (rows : Table Value Value) :
    Check Unit :=
  rows.forM fun (key, _) =>
    match key, textOf? key with
    | .text name, _ =>
      if known.contains name then return else note (path ++ [.key key]) .unknownKey
    | _, some _ => note (path ++ [.key key]) .unknownKey
    | _, none => note (path ++ [.key key]) .invalidKey

/-- The text of a field, which is `default` if the field is absent. -/
def textField (path : List DataStep) (rows : Table Value Value) (name default : String) :
    Check String := do
  match Table.get? rows (.text name) with
  | none => return default
  | some v => match textOf? v with
    | some s => return s
    | none =>
      note (path ++ [.key (.text name)]) .notText
      return default

/-- The options of a feature: absent, a table with texts as keys, or a list. -/
def options (path : List DataStep) (v : Value) : Check Value := do
  match v, itemsOf? v with
  | .null, _ => return .null
  | .mapping rows, _ =>
    let wrong := (Table.keys rows).filter fun key => (textOf? key).isNone
    if wrong.isEmpty then
      return .mapping (Table.ofRows (rows.map fun (key, value) =>
        (((textOf? key).map Value.text).getD key, value)))
    wrong.forM fun key => note (path ++ [.label "dict[str,any]", .key key, .label "[key]"]) .notText
    note (path ++ [.label "list[any]"]) .notList
    return .null
  | _, some items => return .list items
  | _, none =>
    note (path ++ [.label "dict[str,any]"]) .notMapping
    note (path ++ [.label "list[any]"]) .notList
    return .null

/-- An entry of the list of features. -/
def keyword (path : List DataStep) : Value → Check (String × Value)
  | .mapping rows => do
    checkKeys path ["feature", "options"] rows
    let feature ← textField path rows "feature" "module"
    let raw := (Table.get? rows (.text "options")).getD .null
    return (feature, ← options (path ++ [.key (.text "options")]) raw)
  | _ => do
    note path .notTable
    return ("", .null)

/-- The entries of the list of features, the first of which has the number `index`. -/
def keywordsFrom (path : List DataStep) : Nat → List Value → Check (List (String × Value))
  | _, [] => return []
  | index, item :: items => do
    let entry ← keyword (path ++ [.index index]) item
    return entry :: (← keywordsFrom path (index + 1) items)

/-- The list of features. -/
def keywords (rows : Table Value Value) : Check (List (String × Value)) := do
  let path := [DataStep.key (.text "keywords")]
  match Table.get? rows (.text "keywords") with
  | none => return []
  | some v => match itemsOf? v with
    | some items => keywordsFrom path 0 items
    | none =>
      note path .notList
      return []

/-- The table about logging: level and format. -/
def logging (rows : Table Value Value) : Check (String × String) := do
  let path := [DataStep.key (.text "logging")]
  let standard : Config := {}
  match Table.get? rows (.text "logging") with
  | none => return (standard.level, standard.format)
  | some (.mapping rows) =>
    checkKeys path ["level", "format"] rows
    let level ← textField path rows "level" standard.level
    let format ← textField path rows "format" standard.format
    return (level, format)
  | some _ =>
    note path .notTable
    return (standard.level, standard.format)

/-- The configuration that data describe. -/
def check : Value → Check Config
  | .mapping rows => do
    checkKeys [] ["package", "keywords", "logging"] rows
    let package ← textField [] rows "package" ({} : Config).package
    let prelude ← keywords rows
    let (level, format) ← logging rows
    return { package, level, format, prelude }
  | _ => do
    note [] .notTable
    return {}

/-- The configuration that data describe; `source` says where they come from. -/
def ofData (data : Value) (source : String) : Except Misconfiguration Config :=
  match (check data).run [] with
  | (config, []) => .ok config
  | (_, faults) => .error (.invalidData source faults)

end Config

end BraceScript
