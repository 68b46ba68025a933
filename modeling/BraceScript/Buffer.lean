import BraceScript.Place

/-!
# Source text that is edited while it is read

A buffer holds the text of a script.  Characters are counted from zero; an edit at an offset
outside the text is refused.  `Buffer.location` and `Buffer.lineAt` place an offset for
messages; they accept offsets beyond the end, which count as the end except in the column.
-/

namespace BraceScript

/-- An edit was asked for at `offset`, outside a text of `length` characters. -/
structure OutsideBuffer where
  offset : Int
  length : Nat
deriving DecidableEq, Repr

/-- The message of a refused edit. -/
def OutsideBuffer.message (e : OutsideBuffer) : String :=
  "Offset " ++ toString e.offset ++ " outside buffer of length " ++ toString e.length

/-- A source text and the name of the file it comes from. -/
structure Buffer where
  text : List Char
  file : String := "<string>"
deriving DecidableEq, Repr, Inhabited

namespace Buffer

/-- The number of characters. -/
def length (b : Buffer) : Nat := b.text.length

/-- An offset at which the text may be edited: a position before a character or the end. -/
def position? (b : Buffer) (offset : Int) : Except OutsideBuffer Nat :=
  if 0 ≤ offset ∧ offset ≤ b.length then .ok offset.toNat else .error ⟨offset, b.length⟩

/-- Inserts characters at an offset. -/
def insert (b : Buffer) (offset : Int) (chars : List Char) : Except OutsideBuffer Buffer := do
  let k ← b.position? offset
  return { b with text := b.text.take k ++ chars ++ b.text.drop k }

/-- The position that a number stands for: a negative one is counted from the end of the text, and
what lies before the text is its start. -/
def resolve (b : Buffer) (position : Int) : Nat :=
  (if position < 0 then position + b.length else position).toNat

theorem resolve_of_nonneg {b : Buffer} {position : Int} (h : 0 ≤ position) :
    b.resolve position = position.toNat := by
  rw [resolve, if_neg (by omega)]

/-- Takes out the `length` characters from an offset on: the text up to the offset is followed by
the text from `offset + length` on.  So a negative length repeats characters before the offset, or,
where it leads to a negative position, takes out all but the end of the text. -/
def delete (b : Buffer) (offset length : Int) : Except OutsideBuffer Buffer := do
  let k ← b.position? offset
  return { b with text := b.text.take k ++ b.text.drop (b.resolve (offset + length)) }

/-- The number of characters up to and including the last line break before an offset. -/
def lineStart (b : Buffer) (offset : Nat) : Nat :=
  let before := b.text.take offset
  before.length - (before.reverse.takeWhile (· != '\n')).length

/-- Line and column of an offset, counted from one. -/
def location (b : Buffer) (offset : Nat) : Nat × Nat :=
  ((b.text.take offset).count '\n' + 1, offset - b.lineStart offset + 1)

/-- The line that an offset is on, without its line break. -/
def lineAt (b : Buffer) (offset : Nat) : List Char :=
  (b.text.take offset).drop (b.lineStart offset) ++
    (b.text.drop offset).takeWhile (· != '\n')

/-- The place of an offset, with the line quoted. -/
def place (b : Buffer) (offset : Nat) : Place where
  file := b.file
  line := (b.location offset).1
  column := (b.location offset).2
  snippet := some (String.ofList (b.lineAt offset))

end Buffer

end BraceScript
