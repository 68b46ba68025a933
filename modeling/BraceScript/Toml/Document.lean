import BraceScript.Toml.Value

/-!
# TOML documents

A document is a sequence of lines: blank ones, headers of tables (`[a.b]`), headers that add a
table to an array of tables (`[[a.b]]`), and rows, which belong to the table of the last header.
A table is defined once.  A table that dotted keys have made under one header cannot be defined
or added to by dotted keys under a later one.
-/

namespace BraceScript.Toml

open Scan

/-- A document as far as it has been read. -/
structure Draft where
  rows : Rows := []
  /-- The key of the last header. -/
  header : Key := []
  /-- Tables that cannot be defined again. -/
  defined : List Key := []
  /-- Tables that dotted keys have made since the last header. -/
  dotted : List Key := []
  /-- Values that are complete. -/
  closed : List Key := []

namespace Draft

/-- Ends the rows of the last header. -/
def endRows (draft : Draft) : Draft :=
  { draft with defined := draft.dotted ++ draft.defined, dotted := [] }

/-- Defines a table. -/
def define (draft : Draft) (key : Key) : Except Fault Draft := do
  if draft.defined.contains key || leadsInto draft.closed key then throw .malformed
  let rows ← modifyNest true key draft.rows .ok
  return { draft with rows, header := key, defined := key :: draft.defined }

/-- Adds an empty table to the array of a name. -/
def addItem (name : String) (rows : Rows) : Except Fault Rows :=
  match Table.get? rows (.text name) with
  | none => .ok (Table.put rows (.text name) (.list [.mapping []]))
  | some (.list items) =>
    .ok (Table.put rows (.text name) (.list (items ++ [.mapping []])))
  | some _ => .error .malformed

/-- Adds a table to an array of tables.  What was known of the tables inside the last one is
forgotten. -/
def defineItem (draft : Draft) (key : Key) : Except Fault Draft := do
  if leadsInto draft.closed key then throw .malformed
  let outside (paths : List Key) : List Key := paths.filter fun path => !key.isPrefixOf path
  let rows ← modifyNest true key.dropLast draft.rows (addItem (key.getLast?.getD ""))
  return { draft with rows, header := key, defined := key :: outside draft.defined,
                      closed := outside draft.closed }

/-- Adds a row to the table of the last header. -/
def addRow (draft : Draft) (key : Key) (value : Value) : Except Fault Draft := do
  let path (count : Nat) : Key := draft.header ++ key.take count
  let dotted := (List.range (key.length - 1)).map fun i => path (i + 1)
  if dotted.any draft.defined.contains then throw .malformed
  let nest := draft.header ++ key.dropLast
  if leadsInto draft.closed nest then throw .malformed
  let rows ← modifyNest true nest draft.rows (Toml.addRow (key.getLast?.getD "") value)
  return { draft with rows, dotted := dotted ++ draft.dotted
                      closed := if isComposite value then (draft.header ++ key) :: draft.closed
                        else draft.closed }

end Draft

/-- Reads a header, of which the opening bracket comes next. -/
def header (draft : Draft) : Scan Draft := do
  let draft := draft.endRows
  if ← accept ['[', '['] then
    skipBlanks
    let draft ← draft.defineItem (← key)
    expect [']', ']']
    return draft
  else
    expect ['[']
    skipBlanks
    let draft ← draft.define (← key)
    expect [']']
    return draft

/-- Reads what stands on a line before its comment. -/
def statement (draft : Draft) : Scan Draft := do
  match ← get with
  | [] => return draft
  | c :: _ =>
    if c = '\n' ∨ c = '#' then return draft
    else if c = '[' then header draft
    else
      let (key, value) ← row
      draft.addRow key value

/-- Reads lines up to the end of the text, with fuel for their number. -/
def linesWithin : Nat → Draft → Scan Draft
  | 0, _ => throw .exhausted
  | fuel + 1, draft => do
    skipBlanks
    let draft ← statement draft
    skipBlanks
    skipComment
    match ← get with
    | [] => return draft
    | _ =>
      expect ['\n']
      linesWithin fuel draft

/-- The table that a document denotes. -/
def parseChars (text : List Char) : Except Fault Rows := do
  let (draft, _) ← (linesWithin (text.length + 1) {}).run text
  return draft.rows

/-- The table that a document denotes. -/
def parse (text : String) : Except Fault Rows := parseChars text.toList

end BraceScript.Toml
