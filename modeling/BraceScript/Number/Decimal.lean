import BraceScript.Number.Binary64

/-!
# Decimal numbers and the shortest text of a floating-point number

A decimal is a coefficient and a power of ten.  `Decimal.toBinary64` rounds it to the nearest
floating-point number; `Binary64.shortest` goes the other way and picks the decimal with the
fewest digits that rounds back, the nearest of those, and of two equally near ones the one with
the even last digit.  Text is positional for decimal exponents from -4 to 15, with a decimal
point always written, and in exponent form outside.
-/

namespace BraceScript

/-- The number `coefficient * 10 ^ exponent`. -/
structure Decimal where
  coefficient : Nat
  exponent : Int
deriving DecidableEq, Repr, Inhabited

namespace Decimal

/-- The digits of the coefficient. -/
def digits (d : Decimal) : List Char := Nat.toDigits 10 d.coefficient

/-- A bound on exponents beyond which every decimal rounds to infinity or to zero. -/
def exponentBound : Int := 400

/-- The nearest floating-point number.  Exponents that are surely too large or too small are
decided by the count of digits, so that no huge power is computed. -/
def toBinary64 (negative : Bool) (d : Decimal) : Binary64 :=
  if d.coefficient = 0 then Binary64.zero negative
  else if d.exponent > exponentBound then .infinite negative
  else if d.exponent + d.digits.length < -exponentBound then Binary64.zero negative
  else Binary64.ofRatio negative (d.coefficient * Nat.pow 10 d.exponent.toNat)
    (Nat.pow 10 (-d.exponent).toNat)

/-- The decimal of digits before and after a decimal point and a further exponent. -/
def ofDigits (whole fraction : List Char) (exponent : Int) : Decimal where
  coefficient := Nat.ofDigitChars 10 (whole ++ fraction) 0
  exponent := exponent - fraction.length

/-- Trailing zeros of the coefficient moved into the exponent, at most `fuel` of them. -/
def trimWithin : Nat → Decimal → Decimal
  | 0, d => d
  | fuel + 1, d =>
    if d.coefficient ≠ 0 ∧ d.coefficient % 10 = 0 then
      trimWithin fuel ⟨d.coefficient / 10, d.exponent + 1⟩
    else d

/-- The same number with no trailing zero in the coefficient. -/
def trim (d : Decimal) : Decimal := trimWithin d.digits.length d

/-! ### Text -/

/-- The least decimal exponent that is written positionally. -/
def leastPositional : Int := -4

/-- The least decimal exponent, from the positional ones upwards, that is not. -/
def leastScientific : Int := 16

/-- Digits with a decimal point after the first `point` of them; zeros fill the gap to the
point, and a whole number ends in `.0`. -/
def positional (digits : List Char) (point : Int) : List Char :=
  if point ≤ 0 then '0' :: '.' :: (List.replicate (-point).toNat '0' ++ digits)
  else if digits.length ≤ point.toNat then
    digits ++ List.replicate (point.toNat - digits.length) '0' ++ ['.', '0']
  else digits.take point.toNat ++ '.' :: digits.drop point.toNat

/-- Digits with a point after the first, and a signed exponent of at least two digits. -/
def scientific (digits : List Char) (exponent : Int) : List Char :=
  let power := Nat.toDigits 10 exponent.natAbs
  digits.take 1 ++ (if digits.length ≤ 1 then [] else '.' :: digits.drop 1) ++
    ['e', if exponent < 0 then '-' else '+'] ++
    List.replicate (2 - power.length) '0' ++ power

/-- The text of a decimal. -/
def text (d : Decimal) : List Char :=
  let point : Int := d.digits.length + d.exponent
  if leastPositional ≤ point - 1 ∧ point - 1 < leastScientific then positional d.digits point
  else scientific d.digits (point - 1)

end Decimal

namespace Binary64

/-- The number `mantissa * 2 ^ exponent`, exactly. -/
def exactDecimal (mantissa : Nat) (exponent : Int) : Decimal :=
  if 0 ≤ exponent then ⟨mantissa * Nat.pow 2 exponent.toNat, 0⟩
  else ⟨mantissa * Nat.pow 5 (-exponent).toNat, exponent⟩

/-- The decimals of `count` digits next below and next above an exact one, nearest first, and of
two equally near ones the even one first. -/
def neighbours (exact : Decimal) (count : Nat) : List Decimal :=
  let surplus := exact.digits.length - count
  let unit := Nat.pow 10 surplus
  let low : Decimal := ⟨exact.coefficient / unit, exact.exponent + surplus⟩
  let high : Decimal := ⟨low.coefficient + 1, low.exponent⟩
  let rest := exact.coefficient % unit
  if rest = 0 then [low]
  else if roundHalfEven exact.coefficient unit = low.coefficient then [low, high]
  else [high, low]

/-- The most digits that a number needs to be told from every other one. -/
def maxDigits : Nat := 17

/-- The decimal with the fewest digits, from `count` upwards, that rounds to the number; the
exact decimal once `fuel` counts have been tried. -/
def shortestFrom (mantissa : Nat) (exponent : Int) (exact : Decimal) : Nat → Nat → Decimal
  | 0, _ => exact
  | fuel + 1, count =>
    match (neighbours exact count).find? fun d =>
      d.toBinary64 false == .finite false mantissa exponent with
    | some d => d
    | none => shortestFrom mantissa exponent exact fuel (count + 1)

/-- The shortest decimal that rounds to `mantissa * 2 ^ exponent`. -/
def shortest (mantissa : Nat) (exponent : Int) : Decimal :=
  if mantissa = 0 then ⟨0, 0⟩
  else (shortestFrom mantissa exponent (exactDecimal mantissa exponent) maxDigits 1).trim

/-- A sign before a text. -/
def signed (negative : Bool) (text : List Char) : List Char :=
  if negative then '-' :: text else text

/-- The text of a number. -/
def text : Binary64 → List Char
  | .nan => ['n', 'a', 'n']
  | .infinite negative => signed negative ['i', 'n', 'f']
  | .finite negative mantissa exponent => signed negative (shortest mantissa exponent).text

/-- The text of a number is positional, that is, has no letters. -/
def hasPositionalText (x : Binary64) : Bool :=
  x.text.all fun c => c.isDigit || c == '.' || c == '-'

/-! ### Reading -/

/-- A sign, if there is one, and the rest. -/
def splitSign : List Char → Bool × List Char
  | '-' :: rest => (true, rest)
  | '+' :: rest => (false, rest)
  | rest => (false, rest)

/-- The exponent after `e`, with an optional sign. -/
def exponent? (text : List Char) : Option Int :=
  let (negative, digits) := splitSign text
  if digits.isEmpty || !digits.all Char.isDigit then none
  else
    let power := Nat.ofDigitChars 10 digits 0
    some (if negative then -(power : Int) else power)

/-- Digits with at most one point and an optional exponent, as an unsigned decimal. -/
def decimal? (text : List Char) : Option Decimal :=
  let (mantissa, power) := text.span fun c => c != 'e' && c != 'E'
  let (whole, fraction) := mantissa.span (· != '.')
  let fraction := fraction.drop 1
  if (whole ++ fraction).isEmpty || !(whole ++ fraction).all Char.isDigit then none
  else match power with
    | [] => some (Decimal.ofDigits whole fraction 0)
    | _ :: power => (exponent? power).map (Decimal.ofDigits whole fraction)

/-- The number that a text denotes.  Underscores between digits do not count. -/
def ofText? (text : List Char) : Option Binary64 :=
  let (negative, rest) := splitSign (text.filter (· != '_'))
  if rest = ['i', 'n', 'f'] then some (.infinite negative)
  else if rest = ['n', 'a', 'n'] then some .nan
  else (decimal? rest).map (Decimal.toBinary64 negative)

end Binary64

end BraceScript
