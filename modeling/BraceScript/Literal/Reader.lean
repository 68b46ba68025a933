import BraceScript.Reader

/-!
# Reading literals

The data that follow `use`: quoted texts, numbers, the constants, bare words, which stand for
themselves as text, lists in brackets and mappings in braces.  A comma may follow the last item.
-/

namespace BraceScript.Literal

open Reader

/-- The value of a word that is a constant. -/
def constant? (word : String) : Option Value :=
  if word = "null" then some .null
  else if word = "true" then some (.bool true)
  else if word = "false" then some (.bool false)
  else none

/-- The opposite of a number; a version has none. -/
def negate : Value → Reader Value
  | .int n => return .int (-n)
  | .float x => return .float x.neg
  | .text literal => fail (.negatedVersion literal)
  | v => return v

/-- Reads a number, with a minus sign before it if there is one. -/
def number : Reader Value := do
  let negative ← accept '-'
  match Lexeme.numberValue (← Reader.number .expectedNumber) with
  | none => fail .integerTooLong
  | some v => if negative then negate v else return v

mutual

/-- Reads a value, with fuel for the depth and the length of lists. -/
def valueWithin : Nat → Reader Value
  | 0 => fail .exhausted
  | fuel + 1 => do
    let next ← peek
    match next with
    | some '"' => return .text (← quoted)
    | some '[' =>
      advance 1
      return .list (← itemsWithin fuel)
    | some '{' =>
      advance 1
      return .mapping (Table.ofRows (← rowsWithin fuel))
    | _ =>
      if next.any fun c => Text.isAnyDigit c || c == '-' then number
      else match ← peekWord with
        | none => fail (.expectedData next)
        | some word =>
          advance word.length
          return (constant? word).getD (.text word)

/-- Reads the items of a list up to its closing bracket. -/
def itemsWithin : Nat → Reader (List Value)
  | 0 => fail .exhausted
  | fuel + 1 => do
    if ← accept ']' then return []
    let item ← valueWithin fuel
    if ← accept ',' then return item :: (← itemsWithin fuel)
    expect ']'
    return [item]

/-- Reads the rows of a mapping up to its closing brace. -/
def rowsWithin : Nat → Reader (List (Value × Value))
  | 0 => fail .exhausted
  | fuel + 1 => do
    if ← accept '}' then return []
    let start ← get
    let key ← valueWithin fuel
    if key.text?.isNone then throw ⟨.keyNotText, start⟩
    let _ ← peek
    if !(['=', '>'].isPrefixOf (← get)) then fail .expectedArrow
    advance 2
    let value ← valueWithin fuel
    if ← accept ',' then return (key, value) :: (← rowsWithin fuel)
    expect '}'
    return [(key, value)]

end

/-- Fuel that suffices for a text: every second call reads a character. -/
def fuelFor (text : List Char) : Nat := 2 * text.length + 2

/-- Reads a value. -/
def value : Reader Value := do
  valueWithin (fuelFor (← get))

end BraceScript.Literal
