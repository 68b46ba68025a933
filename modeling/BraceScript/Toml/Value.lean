import BraceScript.Toml.Numeral
import BraceScript.Toml.Moment

/-!
# Keys and values of TOML

A key is a path of names joined by points.  Tables are mappings with texts as keys; a path is
opened by making the tables that are missing on the way (`Toml.modifyNest`).  The tables and
arrays that are written as values are complete: nothing outside can add to them.
-/

namespace BraceScript.Toml

open Scan

/-- The names of a dotted key. -/
abbrev Key := List String

/-- The rows of a table. -/
abbrev Rows := Table Value Value

/-! ### Nested tables -/

/-- Changes the table behind a path, making the tables that are missing on the way.  With
`openArrays`, a step that meets an array of tables goes on into its last table. -/
def modifyNest (openArrays : Bool) : Key → Rows → (Rows → Except Fault Rows) → Except Fault Rows
  | [], rows, change => change rows
  | name :: path, rows, change => do
    match Table.get? rows (.text name) with
    | none =>
      let nest ← modifyNest openArrays path [] change
      return Table.put rows (.text name) (.mapping nest)
    | some (.mapping nest) =>
      let nest ← modifyNest openArrays path nest change
      return Table.put rows (.text name) (.mapping nest)
    | some (.list items) =>
      match openArrays, items.getLast? with
      | true, some (.mapping nest) =>
        let nest ← modifyNest openArrays path nest change
        return Table.put rows (.text name) (.list (items.dropLast ++ [.mapping nest]))
      | _, _ => throw .malformed
    | some _ => throw .malformed

/-- Adds a row for a name that the table does not have yet. -/
def addRow (name : String) (value : Value) (rows : Rows) : Except Fault Rows :=
  if Table.contains rows (.text name) then .error .malformed
  else .ok (Table.put rows (.text name) value)

/-- A value that is complete once it is written: a table or an array. -/
def isComposite : Value → Bool
  | .mapping _ | .list _ => true
  | _ => false

/-- The key leads into one of the given paths or is one of them. -/
def leadsInto (paths : List Key) (key : Key) : Bool :=
  paths.any fun path => path.isPrefixOf key

/-! ### Keys -/

/-- A character of a name without quotes. -/
def isBareChar (c : Char) : Bool :=
  c.isAlphanum || c == '-' || c == '_'

/-- Reads one name of a key. -/
def keyPart : Scan String := do
  match ← get with
  | [] => fail
  | c :: _ =>
    if c = '"' ∨ c = '\'' then quotedLine
    else
      let (name, rest) := (← get).span isBareChar
      if name.isEmpty then fail
      set rest
      return String.ofList name

/-- Reads a key, with fuel for its names. -/
def keyWithin : Nat → Scan Key
  | 0 => throw .exhausted
  | fuel + 1 => do
    let name ← keyPart
    skipBlanks
    if !(← accept ['.']) then return [name]
    skipBlanks
    return name :: (← keyWithin fuel)

/-- Reads a key. -/
def key : Scan Key := do
  keyWithin ((← get).length + 1)

/-! ### Values -/

/-- A table that is being read as a value, and the paths in it that are complete. -/
structure Inline where
  rows : Rows := []
  closed : List Key := []

/-- Adds a value under a key. -/
def Inline.add (table : Inline) (key : Key) (value : Value) : Except Fault Inline := do
  if leadsInto table.closed key then throw .malformed
  let rows ← modifyNest false key.dropLast table.rows (addRow (key.getLast?.getD "") value)
  return { rows, closed := if isComposite value then key :: table.closed else table.closed }

mutual

/-- Reads a value, with fuel for depth and length. -/
def valueWithin : Nat → Scan Value
  | 0 => throw .exhausted
  | fuel + 1 => do
    match ← get with
    | '"' :: _ | '\'' :: _ => return .text (← quoted)
    | '[' :: rest =>
      set rest
      skipLines
      return .list (← itemsWithin fuel)
    | '{' :: rest =>
      set rest
      skipBlanks
      if ← accept ['}'] then return .mapping []
      return .mapping (← rowsWithin fuel {})
    | _ =>
      if ← accept "true".toList then return .bool true
      if ← accept "false".toList then return .bool false
      match ← moment? with
      | some moment => return moment.toValue
      | none => numeral

/-- Reads the items of an array up to and with its closing bracket. -/
def itemsWithin : Nat → Scan (List Value)
  | 0 => throw .exhausted
  | fuel + 1 => do
    if ← accept [']'] then return []
    let item ← valueWithin fuel
    skipLines
    if ← accept [','] then
      skipLines
      return item :: (← itemsWithin fuel)
    expect [']']
    return [item]

/-- Reads the rows of a table up to and with its closing brace. -/
def rowsWithin : Nat → Inline → Scan Rows
  | 0, _ => throw .exhausted
  | fuel + 1, table => do
    let key ← key
    expect ['=']
    skipBlanks
    let value ← valueWithin fuel
    let table ← table.add key value
    skipBlanks
    if ← accept [','] then
      skipBlanks
      rowsWithin fuel table
    else
      expect ['}']
      return table.rows

end

/-- Fuel that suffices for a text: every second call reads a character. -/
def fuelFor (text : List Char) : Nat := 2 * text.length + 2

/-- Reads a value. -/
def value : Scan Value := do
  valueWithin (fuelFor (← get))

/-- Reads a key and a value with an equals sign between them. -/
def row : Scan (Key × Value) := do
  let key ← key
  expect ['=']
  skipBlanks
  return (key, ← value)

end BraceScript.Toml
