import BraceScript.Toml.Scan

/-!
# Quoted texts of TOML

Texts stand between double quotes, where a backslash begins an escape, or between single quotes,
where every character stands for itself.  Three quotes on either side let a text run over lines;
a line feed just after the opening quotes is dropped, and one or two quotes more than three at
the end belong to the text.
-/

namespace BraceScript.Toml

open Scan

/-- The value of a hexadecimal digit. -/
def hexValue? (c : Char) : Option Nat :=
  if c.isDigit then some (c.toNat - '0'.toNat)
  else if 'a' ≤ c ∧ c ≤ 'f' then some (c.toNat - 'a'.toNat + 10)
  else if 'A' ≤ c ∧ c ≤ 'F' then some (c.toNat - 'A'.toNat + 10)
  else none

/-- The number that digits of a base denote, first digit first. -/
def ofDigitValues (base : Nat) (digits : List Nat) : Nat :=
  digits.foldl (fun n digit => n * base + digit) 0

/-- Reads the number of a character in `count` hexadecimal digits. -/
def codePoint (count : Nat) : Scan Char := do
  let digits ← (List.replicate count ()).mapM fun _ => next
  match digits.mapM hexValue? with
  | none => fail
  | some values =>
    let code := ofDigitValues 16 values
    if code.isValidChar then return Char.ofNat code else fail

/-- The escapes of one letter and what they stand for. -/
def escapes : List (Char × Char) :=
  [('b', '\x08'), ('t', '\t'), ('n', '\n'), ('f', '\x0c'), ('r', '\x0d'), ('"', '"'),
    ('\\', '\\')]

/-- Reads what follows a backslash.  In a text over several lines, a backslash at the end of a
line joins it to the next character that is no blank. -/
def escape (multiline : Bool) : Scan (Option Char) := do
  let c ← next
  if multiline && (isBlank c || c == '\n') then
    if c != '\n' then
      skipBlanks
      expect ['\n']
    modify fun text => text.dropWhile fun c => isBlank c || c == '\n'
    return none
  else if c = 'u' then return some (← codePoint 4)
  else if c = 'U' then return some (← codePoint 8)
  else match escapes.lookup c with
    | some meaning => return some meaning
    | none => fail

/-- A character that a text must not hold as it is. -/
def isForbidden (multiline : Bool) (c : Char) : Bool :=
  isControl c && !(multiline && c == '\n')

/-- Reads a text up to and with its closing double quotes, with fuel for its length. -/
def basicWithin (multiline : Bool) : Nat → Scan (List Char)
  | 0 => throw .exhausted
  | fuel + 1 => do
    if ← accept (if multiline then ['"', '"', '"'] else ['"']) then return []
    let c ← next
    if c = '\\' then
      let meaning ← escape multiline
      return meaning.toList ++ (← basicWithin multiline fuel)
    else if isForbidden multiline c then fail
    else return c :: (← basicWithin multiline fuel)

/-- The text before three single quotes, and what follows them. -/
def untilTripleQuote : List Char → Option (List Char × List Char)
  | [] => none
  | '\'' :: '\'' :: '\'' :: rest => some ([], rest)
  | c :: rest => (untilTripleQuote rest).map fun (text, rest) => (c :: text, rest)

/-- Reads a text up to and with its closing single quotes. -/
def literal (multiline : Bool) : Scan (List Char) := do
  let text ← get
  let found := if multiline then untilTripleQuote text
    else match text.span (· != '\'') with
      | (inside, _ :: rest) => some (inside, rest)
      | (_, []) => none
  match found with
  | none => fail
  | some (inside, rest) =>
    if inside.any (isForbidden multiline) then fail
    set rest
    return inside

/-- Reads up to two more quotes, which belong to the text before them. -/
def extraQuotes (quote : Char) : Scan (List Char) := do
  if !(← accept [quote]) then return []
  if !(← accept [quote]) then return [quote]
  return [quote, quote]

/-- Reads a text on one line, of which the opening quote comes next. -/
def quotedLine : Scan String := do
  let quote ← next
  let fuel := (← get).length + 1
  if quote = '"' then return String.ofList (← basicWithin false fuel)
  else return String.ofList (← literal false)

/-- Reads a text over several lines, of which the three opening quotes come next. -/
def quotedLines (quote : Char) : Scan String := do
  expect [quote, quote, quote]
  let _ ← accept ['\n']
  let fuel := (← get).length + 1
  let text ← if quote = '"' then basicWithin true fuel else literal true
  return String.ofList (text ++ (← extraQuotes quote))

/-- Reads a text, of which the opening quote comes next. -/
def quoted : Scan String := do
  match ← get with
  | '"' :: '"' :: '"' :: _ => quotedLines '"'
  | '\'' :: '\'' :: '\'' :: _ => quotedLines '\''
  | _ => quotedLine

end BraceScript.Toml
