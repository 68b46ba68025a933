/-!
# Floating-point numbers of 64 bits

A finite number is a sign, a mantissa below `2 ^ 53` and a binary exponent of at least `-1074`.
Numbers arise by rounding a ratio of natural numbers to the nearest such number, a tie going to
the even mantissa (`Binary64.ofRatio`).  All arithmetic is exact arithmetic on natural numbers.
-/

namespace BraceScript

/-- The ratio rounded to the nearest natural number, a tie going to the even one. -/
def roundHalfEven (num den : Nat) : Nat :=
  let quotient := num / den
  let rest := num % den
  if 2 * rest < den || (2 * rest == den && quotient % 2 == 0) then quotient else quotient + 1

/-- A number of the 64-bit binary format. -/
inductive Binary64 where
  /-- `mantissa * 2 ^ exponent` with a sign, which zero has too. -/
  | finite (negative : Bool) (mantissa : Nat) (exponent : Int)
  | infinite (negative : Bool)
  | nan
deriving DecidableEq, Repr, Inhabited

namespace Binary64

/-- The least exponent, that of zero and of the smallest numbers. -/
def minExponent : Int := -1074

/-- The largest exponent of a finite number. -/
def maxExponent : Int := 971

/-- The number of bits of a mantissa. -/
def precision : Nat := 53

/-- Zero with a sign. -/
def zero (negative : Bool) : Binary64 := .finite negative 0 minExponent

/-- The exponent `k` with `2 ^ k ≤ num / den < 2 ^ (k + 1)`, of positive numbers. -/
def floorLog2 (num den : Nat) : Int :=
  let k : Int := (num.log2 : Int) - den.log2
  if den * Nat.pow 2 k.toNat ≤ num * Nat.pow 2 (-k).toNat then k else k - 1

/-- The number nearest to a ratio. -/
def ofRatio (negative : Bool) (num den : Nat) : Binary64 :=
  if num = 0 then zero negative else
    let exponent := max minExponent (floorLog2 num den - (precision - 1))
    let mantissa := roundHalfEven (num * Nat.pow 2 (-exponent).toNat)
      (den * Nat.pow 2 exponent.toNat)
    let (mantissa, exponent) :=
      if mantissa = Nat.pow 2 precision then (Nat.pow 2 (precision - 1), exponent + 1)
      else (mantissa, exponent)
    if exponent > maxExponent then .infinite negative else .finite negative mantissa exponent

/-- The opposite number. -/
def neg : Binary64 → Binary64
  | .finite negative mantissa exponent => .finite (!negative) mantissa exponent
  | .infinite negative => .infinite (!negative)
  | .nan => .nan

/-- Numeric equality: both zeros are one number and no number is `nan`. -/
def same : Binary64 → Binary64 → Bool
  | .finite negative mantissa exponent, .finite negative' mantissa' exponent' =>
    (mantissa == 0 && mantissa' == 0) ||
      (negative == negative' && mantissa == mantissa' && exponent == exponent')
  | .infinite negative, .infinite negative' => negative == negative'
  | _, _ => false

/-- The number is the integer `n`. -/
def isInt (x : Binary64) (n : Int) : Bool :=
  match x with
  | .finite negative mantissa exponent =>
    let signed : Int := if negative then -(mantissa : Int) else mantissa
    signed * (Nat.pow 2 exponent.toNat : Nat) == n * (Nat.pow 2 (-exponent).toNat : Nat)
  | _ => false

end Binary64

end BraceScript
