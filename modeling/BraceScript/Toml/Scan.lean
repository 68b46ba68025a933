import BraceScript.Value.Basic

/-!
# Scanning TOML

A scan takes characters off the front of the unread text.  Lines end in a line feed.  Blanks
are spaces and tabs; a comment runs to the end of its line and holds no control characters.
-/

namespace BraceScript.Toml

/-- Why a text is no TOML document. -/
inductive Fault where
  | malformed
  /-- An integer of more digits than any integer may have. -/
  | integerTooLong
  /-- The scan has used up its fuel. -/
  | exhausted
deriving DecidableEq, Repr

/-- A scan with a result of type `α`; its state is the unread text. -/
abbrev Scan := StateT (List Char) (Except Fault)

/-- A blank within a line. -/
def isBlank (c : Char) : Bool := c == ' ' || c == '\t'

/-- A character that no line may hold. -/
def isControl (c : Char) : Bool := (c.toNat < 32 && c != '\t') || c.toNat == 127

/-- What follows blanks, ends of lines and comments; `inComment` says that a comment is open. -/
def afterLines : (inComment : Bool) → List Char → Except Fault (List Char)
  | _, [] => .ok []
  | true, c :: rest =>
    if c = '\n' then afterLines false rest
    else if isControl c then .error .malformed
    else afterLines true rest
  | false, c :: rest =>
    if isBlank c || c == '\n' then afterLines false rest
    else if c = '#' then afterLines true rest
    else .ok (c :: rest)

namespace Scan

/-- Refuses the text. -/
def fail {α : Type} : Scan α := throw .malformed

/-- Moves past the next character and gives it. -/
def next : Scan Char := do
  match ← get with
  | [] => fail
  | c :: rest =>
    set rest
    return c

/-- Moves past the given characters if they come next. -/
def accept (literal : List Char) : Scan Bool := do
  let text ← get
  if literal.isPrefixOf text then
    set (text.drop literal.length)
    return true
  else return false

/-- Moves past the given characters, which must come next. -/
def expect (literal : List Char) : Scan Unit := do
  if !(← accept literal) then fail

/-- Moves past blanks. -/
def skipBlanks : Scan Unit :=
  modify fun text => text.dropWhile isBlank

/-- Moves past blanks, ends of lines and comments. -/
def skipLines : Scan Unit := do
  set (← afterLines false (← get))

/-- Moves past a comment if one comes next, up to the end of its line. -/
def skipComment : Scan Unit := do
  match ← get with
  | '#' :: text =>
    let (comment, rest) := text.span (· != '\n')
    if comment.any isControl then fail
    set rest
  | _ => return

/-- Takes what an attempt finds at the front of the unread text, if it finds something. -/
def attempt {α : Type} (find : StateT (List Char) Option α) : Scan (Option α) := do
  match find (← get) with
  | some (a, rest) =>
    set rest
    return some a
  | none => return none

end Scan

end BraceScript.Toml
