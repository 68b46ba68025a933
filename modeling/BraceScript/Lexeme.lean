import BraceScript.Text.CharClass
import BraceScript.Value.Basic

/-!
# Lexemes

The smallest pieces of a script: blanks and comments, which mean nothing, and words, numbers and
quoted texts.  Each function looks at the unread text and finds the piece at its start.  There is
no list of tokens, because the text ahead may change before it is read.
-/

namespace BraceScript.Lexeme

/-! ### Insignificant input -/

/-- The number of characters at the start of a text that are blanks or belong to a comment,
which runs from `#` to the end of its line.  `inComment` says that a comment is open. -/
def insignificantFrom : (inComment : Bool) → List Char → Nat
  | _, [] => 0
  | true, c :: rest => insignificantFrom (c != '\n') rest + 1
  | false, c :: rest =>
    if Text.isBlank c then insignificantFrom false rest + 1
    else if c = '#' then insignificantFrom true rest + 1
    else 0

/-- The number of insignificant characters at the start of a text. -/
def insignificant (text : List Char) : Nat := insignificantFrom false text

/-! ### Words -/

/-- The rest of a word: word characters, and `::` where a word follows it. -/
def wordTail : List Char → List Char
  | [] => []
  | c :: rest =>
    if Text.isWordChar c then c :: wordTail rest
    else match c, rest with
      | ':', ':' :: d :: rest' =>
        if Text.isWordStart d then ':' :: ':' :: d :: wordTail rest' else []
      | _, _ => []

/-- The word at the start of a text: names joined by `::`. -/
def word? : List Char → Option (List Char)
  | [] => none
  | c :: rest => if Text.isWordStart c then some (c :: wordTail rest) else none

/-! ### Numbers -/

/-- The rest of a number: digits, underscores, and points that a digit follows. -/
def numberTail : List Char → List Char
  | [] => []
  | c :: rest =>
    if c.isDigit || c == '_' then c :: numberTail rest
    else match c, rest with
      | '.', d :: rest' => if d.isDigit then '.' :: d :: numberTail rest' else []
      | _, _ => []

/-- The number at the start of a text: digits, underscores and single points. -/
def number? : List Char → Option (List Char)
  | [] => none
  | c :: rest => if c.isDigit then some (c :: numberTail rest) else none

/-- The most digits an integer may be written with. -/
def maxDigits : Nat := 4300

/-- The value of a number: an integer without a point, a floating-point number with one, and
with more points the number itself as text, a version.  Underscores do not count.  An integer of
too many digits has no value. -/
def numberValue (lexeme : List Char) : Option Value :=
  let digits := lexeme.filter (· != '_')
  match digits.count '.' with
  | 0 =>
    if digits.length ≤ maxDigits then some (.int (Nat.ofDigitChars 10 digits 0 : Nat)) else none
  | 1 =>
    let (whole, fraction) := digits.span (· != '.')
    some (.float ((Decimal.ofDigits whole (fraction.drop 1) 0).toBinary64 false))
  | _ => some (.text (String.ofList lexeme))

/-! ### Quoted text -/

/-- A quoted text that does not end. -/
inductive QuoteFault where
  /-- The text ends inside the quotes. -/
  | unterminated
  /-- The text ends after a backslash inside the quotes. -/
  | unfinishedEscape
deriving DecidableEq, Repr

/-- The message of a quoted text that does not end. -/
def QuoteFault.message : QuoteFault → String
  | unterminated => "Unterminated string literal"
  | unfinishedEscape => "Unterminated escape sequence"

/-- The character that a backslash and `c` stand for. -/
def unescape (c : Char) : Char :=
  if c = 'n' then '\n' else if c = 't' then '\t' else c

/-- What stands between quotes, read from just after the opening one: the text and the number of
characters read, the closing quote included. -/
def quoted : List Char → Except QuoteFault (List Char × Nat)
  | [] => .error .unterminated
  | '"' :: _ => .ok ([], 1)
  | ['\\'] => .error .unfinishedEscape
  | '\\' :: c :: rest => do
    let (text, read) ← quoted rest
    return (unescape c :: text, read + 2)
  | c :: rest => do
    let (text, read) ← quoted rest
    return (c :: text, read + 1)

end BraceScript.Lexeme
