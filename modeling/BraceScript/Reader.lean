import BraceScript.Fault

/-!
# Readers of the unread text

A reader takes lexemes off the front of the unread text.  It never looks at what has been read
before, so it works alike wherever in a script it is run.  When it fails, it says why and where,
and the text it has read so far stays read.
-/

namespace BraceScript

/-- A fault and the unread text from the place of the fault on. -/
structure ReadError where
  fault : Fault
  place : List Char
deriving DecidableEq, Repr

/-- A reader with a result of type `α`; its state is the unread text. -/
abbrev Reader := EStateM ReadError (List Char)

namespace Reader

/-- Fails at the start of the unread text. -/
def fail {α : Type} (fault : Fault) : Reader α := do
  throw ⟨fault, ← get⟩

/-- Moves past `count` characters. -/
def advance (count : Nat) : Reader Unit :=
  modify (·.drop count)

/-- Moves past insignificant input and shows the next character. -/
def peek : Reader (Option Char) := do
  modify fun text => text.drop (Lexeme.insignificant text)
  return (← get).head?

/-- Moves past the character `c` if it comes next. -/
def accept (c : Char) : Reader Bool := do
  if (← peek) = some c then
    advance 1
    return true
  else return false

/-- Moves past the character `c`, which must come next. -/
def expect (c : Char) : Reader Unit := do
  let found ← peek
  if found = some c then advance 1 else fail (.expectedChar c found)

/-- The word that comes next, without moving past it. -/
def peekWord : Reader (Option String) := do
  let _ ← peek
  return (Lexeme.word? (← get)).map String.ofList

/-- Reads a word; `what` says of what kind it is to be. -/
def word (what : String) : Reader String := do
  match ← peekWord with
  | some word =>
    advance word.length
    return word
  | none => fail (.expectedWord what)

/-- Reads a number as it is written, without moving past insignificant input first. -/
def number (missing : Fault) : Reader (List Char) := do
  match Lexeme.number? (← get) with
  | some lexeme =>
    advance lexeme.length
    return lexeme
  | none => fail missing

/-- Reads a quoted text, of which the opening quote comes next. -/
def quoted : Reader String := do
  let text ← get
  match Lexeme.quoted (text.drop 1) with
  | .ok (chars, read) =>
    advance (read + 1)
    return String.ofList chars
  | .error .unterminated => throw ⟨.quote .unterminated, text⟩
  | .error .unfinishedEscape => throw ⟨.quote .unfinishedEscape, text.drop (text.length - 1)⟩

end Reader

end BraceScript
