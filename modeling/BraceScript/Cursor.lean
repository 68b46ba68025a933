import BraceScript.Buffer
import BraceScript.Lexeme
import BraceScript.Version

/-!
# Editing a text at a declaration

A cursor is a buffer with an offset at which it is edited.  Inserted text is stepped over at once
and removed text is gone, so a cursor never reads what it has written, and never reads anything
twice.
-/

namespace BraceScript

/-- A buffer and an offset in it. -/
structure Cursor where
  buffer : Buffer
  offset : Nat
deriving DecidableEq, Repr, Inhabited

namespace Cursor

/-- The text from the offset on. -/
def rest (c : Cursor) : List Char := c.buffer.text.drop c.offset

/-- The text from the offset to the end of its line. -/
def restOfLine (c : Cursor) : List Char := c.rest.takeWhile (· != '\n')

/-- Moves over characters. -/
def advance (c : Cursor) (count : Nat) : Cursor := { c with offset := c.offset + count }

/-- Moves over insignificant input. -/
def skip (c : Cursor) : Cursor := c.advance (Lexeme.insignificant c.rest)

/-- The text at the offset starts with `literal`. -/
def startsWith (c : Cursor) (literal : List Char) : Bool := literal.isPrefixOf c.rest

/-- Inserts text `skip` characters past the offset and moves behind it. -/
def inject (c : Cursor) (text : List Char) (skip : Int := 0) : Except OutsideBuffer Cursor := do
  let offset := (c.offset : Int) + skip
  let buffer ← c.buffer.insert offset text
  return ⟨buffer, (offset + text.length).toNat⟩

/-- The `length` characters at the offset. -/
def ahead (c : Cursor) (length : Int) : List Char :=
  (c.buffer.text.take (c.buffer.resolve (c.offset + length))).drop c.offset

theorem ahead_natCast (c : Cursor) (length : Nat) : c.ahead length = c.rest.take length := by
  have hstop : ((c.offset : Int) + length).toNat = c.offset + length := by omega
  rw [ahead, Buffer.resolve_of_nonneg (by omega), hstop, rest, List.drop_take,
    Nat.add_sub_cancel_left]

/-- Takes out `length` characters at the offset. -/
def strip (c : Cursor) (length : Int) : Except OutsideBuffer (List Char × Cursor) := do
  let buffer ← c.buffer.delete c.offset length
  return (c.ahead length, { c with buffer })

/-- Moves over insignificant input and takes out what `lexeme?` finds there, if anything. -/
def stripLexeme (c : Cursor) (lexeme? : List Char → Option (List Char)) :
    Except OutsideBuffer (Option (List Char) × Cursor) :=
  let c := c.skip
  match lexeme? c.rest with
  | none => .ok (none, c)
  | some lexeme => do
    let (removed, c) ← c.strip lexeme.length
    return (some removed, c)

/-- Takes out a qualified name, if one comes next. -/
def stripName (c : Cursor) : Except OutsideBuffer (Option (List Char) × Cursor) :=
  c.stripLexeme Lexeme.word?

/-- Takes out a version, if one comes next. -/
def stripVersion (c : Cursor) : Except OutsideBuffer (Option (List Char) × Cursor) :=
  c.stripLexeme Version.literal?

end Cursor

end BraceScript
