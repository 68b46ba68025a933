import BraceScript.Toml.Quoted
import BraceScript.Lexeme

/-!
# Numbers of TOML

Integers are decimal, with a sign if wanted, or hexadecimal, octal or binary without one.  A
fraction or an exponent makes a floating-point number.  An underscore may stand between two
digits.
-/

namespace BraceScript.Toml

open Scan

/-- The rest of a run of digits of the class `p`: digits with at most one underscore before each. -/
def digitTail (p : Char → Bool) : List Char → List Char
  | [] => []
  | c :: rest =>
    if p c then c :: digitTail p rest
    else match c, rest with
      | '_', d :: rest' => if p d then '_' :: d :: digitTail p rest' else []
      | _, _ => []

/-- A run of digits of the class `p`, which is empty where no digit comes next. -/
def digitRun (p : Char → Bool) : List Char → List Char
  | [] => []
  | c :: rest => if p c then c :: digitTail p rest else []

/-- A run of decimal digits with no zero before another digit. -/
def wholeRun : List Char → List Char
  | '0' :: _ => ['0']
  | text => digitRun Char.isDigit text

/-- The sign at the start of a text. -/
def signRun : List Char → List Char
  | c :: _ => if c = '+' ∨ c = '-' then [c] else []
  | [] => []

/-- The decimal point and digits at the start of a text. -/
def fractionRun : List Char → List Char
  | '.' :: text => match digitRun Char.isDigit text with
    | [] => []
    | digits => '.' :: digits
  | _ => []

/-- The exponent at the start of a text. -/
def exponentRun : List Char → List Char
  | [] => []
  | c :: text =>
    if c = 'e' ∨ c = 'E' then
      let sign := signRun text
      match digitRun Char.isDigit (text.drop sign.length) with
      | [] => []
      | digits => c :: sign ++ digits
    else []

/-- The bases that are written with a letter: letter, base, and class of digits. -/
def bases : List (Char × Nat × (Char → Bool)) :=
  [('x', 16, fun c => (hexValue? c).isSome),
    ('o', 8, fun c => '0' ≤ c && c ≤ '7'),
    ('b', 2, fun c => c == '0' || c == '1')]

/-- An integer with a base in front, and how many characters it takes. -/
def basedInteger? : List Char → Option (Int × Nat)
  | '0' :: letter :: text => do
    let (base, isDigit) ← bases.lookup letter
    match digitRun isDigit text with
    | [] => none
    | digits =>
      some ((ofDigitValues base (digits.filterMap hexValue?) : Nat), digits.length + 2)
  | _ => none

/-- A decimal integer, unless it has too many digits. -/
def integer (sign whole : List Char) : Except Fault Value :=
  let digits := whole.filter (· != '_')
  if digits.length > Lexeme.maxDigits then .error .integerTooLong
  else
    let n : Int := (Nat.ofDigitChars 10 digits 0 : Nat)
    .ok (.int (if sign = ['-'] then -n else n))

/-- The special numbers, by their letters. -/
def specials : List (List Char) := [['i', 'n', 'f'], ['n', 'a', 'n']]

/-- Reads a number. -/
def numeral : Scan Value := do
  let text ← get
  match basedInteger? text with
  | some (n, length) =>
    set (text.drop length)
    return .int n
  | none =>
    let sign := signRun text
    let unsigned := text.drop sign.length
    let lexeme := match wholeRun unsigned with
      | [] => (specials.find? (List.isPrefixOf · unsigned)).getD []
      | whole =>
        let fraction := fractionRun (unsigned.drop whole.length)
        whole ++ fraction ++ exponentRun (unsigned.drop (whole.length + fraction.length))
    set (unsigned.drop lexeme.length)
    match lexeme with
    | [] => fail
    | _ =>
      if lexeme.all fun c => c.isDigit || c == '_' then integer sign lexeme
      else match Binary64.ofText? (sign ++ lexeme) with
        | some x => return .float x
        | none => fail

end BraceScript.Toml
