import BraceScript.Number.Decimal
import BraceScript.Proofs.Lexeme
import Mathlib.Algebra.Order.Field.Power
import Mathlib.Data.Int.Log
import Mathlib.Data.Rat.Floor
import Mathlib.Tactic.FieldSimp
import Mathlib.Tactic.Linarith
import Mathlib.Tactic.Positivity
import Mathlib.Tactic.Ring
import Mathlib.Tactic.NormNum

/-!
# Floating-point numbers survive their text

Rounding a ratio depends on its value only (`Binary64.ofRatio_congr`), a number of the format is
its own rounding (`Binary64.ofRatio_exact`), and so the decimal that is picked as the shortest
one, which was tested to round back, still does so once it has been written positionally
(`Binary64.text_reads_back`).
-/

namespace BraceScript

/-! ### Rounding depends on the value alone -/

theorem roundHalfEven_mul (num den : Nat) {k : Nat} (hk : 0 < k) :
    roundHalfEven (num * k) (den * k) = roundHalfEven num den := by
  have hlt : 2 * (num % den * k) < den * k ↔ 2 * (num % den) < den := by
    rw [← mul_assoc]
    exact Nat.mul_lt_mul_right hk
  have heq : 2 * (num % den * k) = den * k ↔ 2 * (num % den) = den := by
    rw [← mul_assoc]
    exact Nat.mul_left_inj (by omega)
  simp only [roundHalfEven, Nat.mul_div_mul_right _ _ hk, Nat.mul_mod_mul_right, hlt,
    Bool.or_eq_true, decide_eq_true_eq, Bool.and_eq_true, beq_iff_eq, heq]

theorem roundHalfEven_congr {num den num' den' : Nat} (hd : 0 < den) (hd' : 0 < den')
    (h : num * den' = num' * den) : roundHalfEven num den = roundHalfEven num' den' := by
  rw [← roundHalfEven_mul num den hd', ← roundHalfEven_mul num' den' hd, h, mul_comm den den']

/-- A whole ratio is rounded to itself. -/
theorem roundHalfEven_exact (n : Nat) {den : Nat} (hd : 0 < den) :
    roundHalfEven (n * den) den = n := by
  simp [roundHalfEven, Nat.mul_div_cancel _ hd, Nat.mul_mod_left, hd]

/-- Between which powers of the base a scaled number lies is decided by the number. -/
theorem log_mul_zpow {base n k : Nat} (hb : 1 < base) (hlow : base ^ k ≤ n)
    (hhigh : n < base ^ (k + 1)) (e : Int) :
    Int.log base ((n : ℚ) * (base : ℚ) ^ e) = k + e := by
  have hbase : (0 : ℚ) < base := by exact_mod_cast Nat.zero_lt_of_lt hb
  have hlow' : (base : ℚ) ^ k ≤ n := by exact_mod_cast hlow
  have hhigh' : (n : ℚ) < base ^ (k + 1) := by exact_mod_cast hhigh
  have hpos : (0 : ℚ) < n * base ^ e :=
    mul_pos ((pow_pos hbase k).trans_le hlow') (zpow_pos hbase e)
  have hge : (base : ℚ) ^ ((k : Int) + e) ≤ n * base ^ e := by
    rw [zpow_add₀ hbase.ne', zpow_natCast]
    gcongr
  have hlt : (n : ℚ) * base ^ e < base ^ (((k + 1 : Nat) : Int) + e) := by
    rw [zpow_add₀ hbase.ne', zpow_natCast]
    gcongr
  have hle := (Int.zpow_le_iff_le_log hb hpos).1 hge
  have hlt' := (Int.lt_zpow_iff_log_lt hb hpos).1 hlt
  omega

namespace Binary64

/-- Scaling by powers of two in numerator and denominator is scaling by one power of two. -/
theorem pow_toNat_div (base : Nat) (hb : base ≠ 0) (k : Int) :
    ((base ^ k.toNat : Nat) : ℚ) / ((base ^ (-k).toNat : Nat) : ℚ) = (base : ℚ) ^ k := by
  have hb' : (base : ℚ) ≠ 0 := by exact_mod_cast hb
  rcases le_total 0 k with hk | hk
  · obtain ⟨n, rfl⟩ := Int.eq_ofNat_of_zero_le hk
    simp
  · obtain ⟨n, hn⟩ := Int.eq_ofNat_of_zero_le (Int.neg_nonneg.2 hk)
    obtain rfl : k = -(n : Int) := by omega
    simp

theorem floorLog2_eq_log {num den : Nat} (hn : 0 < num) (hd : 0 < den) :
    floorLog2 num den = Int.log 2 ((num : ℚ) / den) := by
  have hn' : (0 : ℚ) < num := by exact_mod_cast hn
  have hd' : (0 : ℚ) < den := by exact_mod_cast hd
  have hq : (0 : ℚ) < num / den := by positivity
  have num_ge : (2 : ℚ) ^ num.log2 ≤ num := by exact_mod_cast Nat.log2_self_le hn.ne'
  have num_lt : (num : ℚ) < 2 ^ (num.log2 + 1) := by exact_mod_cast Nat.lt_log2_self
  have den_ge : (2 : ℚ) ^ den.log2 ≤ den := by exact_mod_cast Nat.log2_self_le hd.ne'
  have den_lt : (den : ℚ) < 2 ^ (den.log2 + 1) := by exact_mod_cast Nat.lt_log2_self
  -- the difference of the two logarithms is the logarithm of the ratio or one more
  obtain ⟨k, hk⟩ : ∃ k : Int, k = (num.log2 : Int) - den.log2 := ⟨_, rfl⟩
  have low : (2 : ℚ) ^ (k - 1) ≤ num / den := by
    rw [le_div_iff₀ hd']
    calc (2 : ℚ) ^ (k - 1) * den ≤ 2 ^ (k - 1) * 2 ^ (den.log2 + 1) := by gcongr
      _ = 2 ^ num.log2 := by
        rw [← zpow_natCast, ← zpow_natCast, ← zpow_add₀ two_ne_zero, hk]
        congr 1
        push_cast
        ring
      _ ≤ num := num_ge
  have high : (num : ℚ) / den < 2 ^ (k + 1) := by
    rw [div_lt_iff₀ hd']
    calc (num : ℚ) < 2 ^ (num.log2 + 1) := num_lt
      _ = 2 ^ (k + 1) * 2 ^ den.log2 := by
        rw [← zpow_natCast, ← zpow_natCast, ← zpow_add₀ two_ne_zero, hk]
        congr 1
        push_cast
        ring
      _ ≤ 2 ^ (k + 1) * den := by gcongr
  -- which of the two it is, is what the function tests
  have test : den * Nat.pow 2 k.toNat ≤ num * Nat.pow 2 (-k).toNat ↔
      (2 : ℚ) ^ k ≤ num / den := by
    have hpow := pow_toNat_div 2 two_ne_zero k
    push_cast at hpow
    rw [← hpow, div_le_div_iff₀ (by positivity) hd', mul_comm den]
    exact_mod_cast Iff.rfl
  have log_ge : k - 1 ≤ Int.log 2 ((num : ℚ) / den) :=
    (Int.zpow_le_iff_le_log one_lt_two hq).1 (by exact_mod_cast low)
  have log_lt : Int.log 2 ((num : ℚ) / den) < k + 1 :=
    (Int.lt_zpow_iff_log_lt one_lt_two hq).1 (by exact_mod_cast high)
  have log_test : (2 : ℚ) ^ k ≤ num / den ↔ k ≤ Int.log 2 ((num : ℚ) / den) := by
    have := Int.zpow_le_iff_le_log (R := ℚ) one_lt_two (x := k) hq
    exact_mod_cast this
  simp only [floorLog2, ← hk, test, log_test]
  split_ifs with h <;> omega

theorem ofRatio_congr (negative : Bool) {num den num' den' : Nat} (hd : 0 < den) (hd' : 0 < den')
    (h : num * den' = num' * den) : ofRatio negative num den = ofRatio negative num' den' := by
  have hzero : num = 0 ↔ num' = 0 := by
    constructor
    · rintro rfl
      simpa [hd.ne'] using h.symm
    · rintro rfl
      simpa [hd'.ne'] using h
  by_cases hn : num = 0
  · simp [ofRatio, hn, hzero.1 hn]
  · have hn' : num' ≠ 0 := fun h0 => hn (hzero.2 h0)
    have hq : (num : ℚ) / den = num' / den' := by
      rw [div_eq_div_iff (by exact_mod_cast hd.ne') (by exact_mod_cast hd'.ne')]
      exact_mod_cast h
    have hlog : floorLog2 num den = floorLog2 num' den' := by
      rw [floorLog2_eq_log (Nat.pos_of_ne_zero hn) hd,
        floorLog2_eq_log (Nat.pos_of_ne_zero hn') hd', hq]
    have hround : ∀ a b : Nat, 0 < b →
        roundHalfEven (num * a) (den * b) = roundHalfEven (num' * a) (den' * b) := by
      intro a b hb
      apply roundHalfEven_congr (Nat.mul_pos hd hb) (Nat.mul_pos hd' hb)
      calc num * a * (den' * b) = num * den' * (a * b) := by ring
        _ = num' * a * (den * b) := by rw [h]; ring
    simp only [ofRatio, hn, hn', ↓reduceIte, hlog,
      hround _ (Nat.pow 2 _) (Nat.pow_pos two_pos)]

/-! ### Numbers of the format -/

/-- A number as the format stores it: the mantissa is below `2 ^ 53` and as large as the least
exponent allows. -/
def InFormat : Binary64 → Prop
  | .finite _ mantissa exponent =>
    mantissa < 2 ^ precision ∧ minExponent ≤ exponent ∧ exponent ≤ maxExponent ∧
      (2 ^ (precision - 1) ≤ mantissa ∨ exponent = minExponent)
  | _ => True

instance : DecidablePred InFormat := fun x => by
  cases x <;> unfold InFormat <;> infer_instance

/-- A number of the format is its own rounding. -/
theorem ofRatio_exact (negative : Bool) {mantissa num den : Nat} {exponent : Int}
    (hx : InFormat (.finite negative mantissa exponent)) (hm : mantissa ≠ 0) (hd : 0 < den)
    (h : num * 2 ^ (-exponent).toNat = mantissa * (den * 2 ^ exponent.toNat)) :
    ofRatio negative num den = .finite negative mantissa exponent := by
  obtain ⟨hlt, hmin, hmax, hnormal⟩ := hx
  simp only [precision, minExponent, maxExponent] at hlt hmin hmax hnormal
  have hn : 0 < num := by
    by_contra h0
    obtain rfl : num = 0 := by omega
    have : 0 < mantissa * (den * 2 ^ exponent.toNat) := by positivity
    omega
  have hd' : (den : ℚ) ≠ 0 := by exact_mod_cast hd.ne'
  have hvalue : (num : ℚ) / den = mantissa * 2 ^ exponent := by
    have h' : (num : ℚ) * (2 ^ (-exponent).toNat : Nat) =
        mantissa * (den * (2 ^ exponent.toNat : Nat)) := by exact_mod_cast h
    have hp : (((2 ^ (-exponent).toNat : Nat) : ℚ)) ≠ 0 := by positivity
    have h2 := pow_toNat_div 2 two_ne_zero exponent
    push_cast at h2
    rw [← h2]
    push_cast at h' hp
    field_simp
    linarith
  have hlog : floorLog2 num den = (mantissa.log2 : Int) + exponent := by
    rw [floorLog2_eq_log hn hd, hvalue]
    exact_mod_cast log_mul_zpow one_lt_two (Nat.log2_self_le hm) Nat.lt_log2_self exponent
  have hlog_lt : mantissa.log2 < 53 := (Nat.log2_lt hm).2 hlt
  -- the exponent that rounding chooses is the one that the number has
  have hexp : max minExponent (floorLog2 num den - (precision - 1)) = exponent := by
    rw [hlog]
    simp only [minExponent, precision]
    rcases hnormal with hbig | rfl
    · have : 52 ≤ mantissa.log2 := (Nat.le_log2 hm).2 hbig
      omega
    · omega
  have hround : roundHalfEven (num * Nat.pow 2 (-exponent).toNat) (den * Nat.pow 2 exponent.toNat)
      = mantissa := by
    have : num * Nat.pow 2 (-exponent).toNat = mantissa * (den * Nat.pow 2 exponent.toNat) := h
    rw [this]
    exact roundHalfEven_exact _ (Nat.mul_pos hd (Nat.pow_pos two_pos))
  have hne : mantissa ≠ Nat.pow 2 precision := by
    simp only [precision]
    exact hlt.ne
  have hle : ¬ exponent > maxExponent := by simp only [maxExponent]; omega
  simp only [ofRatio, hn.ne', ↓reduceIte, hexp, hround, hne, hle]

end Binary64

/-! ### Decimals by value -/

namespace Decimal

/-- The number that a decimal stands for. -/
def value (d : Decimal) : ℚ := d.coefficient * 10 ^ d.exponent

theorem coefficient_lt_pow_digits (d : Decimal) : d.coefficient < 10 ^ d.digits.length :=
  (Nat.length_toDigits_le_iff (by decide) Nat.length_toDigits_pos).1 le_rfl

theorem pow_digits_le_coefficient (d : Decimal) (hc : d.coefficient ≠ 0) :
    10 ^ (d.digits.length - 1) ≤ d.coefficient := by
  have hpos : 0 < d.digits.length := Nat.length_toDigits_pos
  by_cases h1 : d.digits.length = 1
  · simp only [h1, Nat.sub_self, pow_zero]
    omega
  · by_contra hlt
    have := (Nat.length_toDigits_le_iff (b := 10) (n := d.coefficient) (by decide)
      (show 0 < d.digits.length - 1 by omega)).2 (not_le.1 hlt)
    simp only [digits] at *
    omega

theorem value_eq_zero_iff {d : Decimal} : d.value = 0 ↔ d.coefficient = 0 := by
  have hten : (10 : ℚ) ^ d.exponent ≠ 0 := by positivity
  rw [value, mul_eq_zero_iff_right hten, Nat.cast_eq_zero]

theorem value_pos {d : Decimal} (hc : d.coefficient ≠ 0) : 0 < d.value := by
  have : (0 : ℚ) < d.coefficient := by exact_mod_cast Nat.pos_of_ne_zero hc
  rw [value]
  positivity

/-- Between which powers of ten a decimal lies is decided by its coefficient. -/
theorem log_of_bounds {d : Decimal} {k : Nat} (hlow : 10 ^ k ≤ d.coefficient)
    (hhigh : d.coefficient < 10 ^ (k + 1)) : Int.log 10 d.value = k + d.exponent := by
  exact_mod_cast log_mul_zpow (by decide) hlow hhigh d.exponent

theorem log_value {d : Decimal} (hc : d.coefficient ≠ 0) :
    Int.log 10 d.value = d.digits.length + d.exponent - 1 := by
  have hlength : 0 < d.digits.length := Nat.length_toDigits_pos
  have hhigh := d.coefficient_lt_pow_digits
  rw [← Nat.sub_add_cancel hlength] at hhigh
  rw [log_of_bounds (d.pow_digits_le_coefficient hc) hhigh]
  omega

theorem pow_le_value_iff {d : Decimal} (hc : d.coefficient ≠ 0) (k : Int) :
    (10 : ℚ) ^ k ≤ d.value ↔ k < d.digits.length + d.exponent := by
  have hle := Int.zpow_le_iff_le_log (R := ℚ) (b := 10) (by decide) (x := k) (value_pos hc)
  rw [log_value hc, Nat.cast_ofNat] at hle
  rw [hle]
  omega

/-- The ratio that a decimal is, as it is rounded. -/
theorem ratio_eq_value (d : Decimal) :
    ((d.coefficient * 10 ^ d.exponent.toNat : Nat) : ℚ) / ((10 ^ (-d.exponent).toNat : Nat) : ℚ) =
      d.value := by
  have hpow := Binary64.pow_toNat_div 10 (by decide) d.exponent
  push_cast at hpow ⊢
  rw [value, ← hpow]
  ring

/-- A decimal that is not cut off by its exponent is rounded as a ratio. -/
theorem toBinary64_eq_ofRatio (negative : Bool) {d : Decimal} (hc : d.coefficient ≠ 0)
    (hmax : d.exponent ≤ exponentBound) (hmin : 10 ^ (-exponentBound) ≤ d.value) :
    d.toBinary64 negative = Binary64.ofRatio negative
      (d.coefficient * 10 ^ d.exponent.toNat) (10 ^ (-d.exponent).toNat) := by
  have hcut : ¬ d.exponent + d.digits.length < -exponentBound := by
    have := (pow_le_value_iff hc _).1 hmin
    omega
  have hmax' : ¬ d.exponent > exponentBound := by omega
  simp only [toBinary64, hc, hmax', hcut, ↓reduceIte]
  rfl

/-- Decimals of one value are rounded alike. -/
theorem toBinary64_congr (negative : Bool) {d d' : Decimal} (hc : d.coefficient ≠ 0)
    (hmax : d.exponent ≤ exponentBound) (hmax' : d'.exponent ≤ exponentBound)
    (hmin : 10 ^ (-exponentBound) ≤ d.value) (h : d.value = d'.value) :
    d.toBinary64 negative = d'.toBinary64 negative := by
  have hc' : d'.coefficient ≠ 0 := by rwa [ne_eq, ← value_eq_zero_iff, ← h, value_eq_zero_iff]
  rw [toBinary64_eq_ofRatio negative hc hmax hmin,
    toBinary64_eq_ofRatio negative hc' hmax' (h ▸ hmin)]
  apply Binary64.ofRatio_congr negative (by positivity) (by positivity)
  have hv := h
  rw [← ratio_eq_value, ← ratio_eq_value, div_eq_div_iff (by positivity) (by positivity)] at hv
  exact_mod_cast hv

theorem value_trimWithin (fuel : Nat) (d : Decimal) : (trimWithin fuel d).value = d.value := by
  fun_induction trimWithin fuel d with
  | case1 => rfl
  | case2 fuel d h ih =>
    rw [ih, value, value]
    have hten : (10 : ℚ) ≠ 0 := by norm_num
    have hc : ((d.coefficient / 10 : Nat) : ℚ) * 10 = d.coefficient := by
      exact_mod_cast Nat.div_mul_cancel (Nat.dvd_of_mod_eq_zero h.2)
    rw [zpow_add₀ hten, zpow_one, ← hc]
    ring
  | case3 => rfl

theorem value_trim (d : Decimal) : d.trim.value = d.value := value_trimWithin _ d

/-! ### Positional text -/

/-- Positional text is digits, a point, and digits; it reads as the number that it was made of. -/
theorem positional_spec {ds : List Char} (hds : ∀ c ∈ ds, c.isDigit = true) (hne : ds ≠ [])
    (point : Int) :
    ∃ whole fraction, positional ds point = whole ++ '.' :: fraction ∧
      (∀ c ∈ whole, c.isDigit = true) ∧ (∀ c ∈ fraction, c.isDigit = true) ∧
      whole ≠ [] ∧ fraction ≠ [] ∧
      (ofDigits whole fraction 0).value =
        (Nat.ofDigitChars 10 ds 0 : ℚ) * 10 ^ (point - ds.length) := by
  have hten : (10 : ℚ) ≠ 0 := by norm_num
  have hzeros : ∀ n, ∀ c ∈ List.replicate n '0', c.isDigit = true := by
    intro n c hc
    rw [List.eq_of_mem_replicate hc]
    decide
  have hlen : 0 < ds.length := List.length_pos_of_ne_nil hne
  unfold positional
  split_ifs with hsmall hlarge
  · refine ⟨['0'], List.replicate (-point).toNat '0' ++ ds, rfl, hzeros 1, ?_, by simp,
      by simp [hne], ?_⟩
    · intro c hc
      rcases List.mem_append.1 hc with hc | hc
      · exact hzeros _ c hc
      · exact hds c hc
    · simp only [ofDigits, value, List.cons_append, List.nil_append, Nat.ofDigitChars_cons,
        Nat.ofDigitChars_append, Nat.ofDigitChars_replicate_zero, List.length_append,
        List.length_replicate]
      have : (0 : Int) - (((-point).toNat + ds.length : Nat) : Int) = point - ds.length := by omega
      rw [this]
      simp
  · refine ⟨ds ++ List.replicate (point.toNat - ds.length) '0', ['0'], by simp, ?_, hzeros 1,
      by simp [hne], by simp, ?_⟩
    · intro c hc
      rcases List.mem_append.1 hc with hc | hc
      · exact hds c hc
      · exact hzeros _ c hc
    · simp only [ofDigits, value, Nat.ofDigitChars_append, Nat.ofDigitChars_replicate_zero,
        Nat.ofDigitChars_cons, Nat.ofDigitChars_nil, List.length_singleton]
      have hexp : point - ds.length = ((point.toNat - ds.length : Nat) : Int) := by omega
      rw [hexp, zpow_natCast]
      push_cast
      simp only [zpow_neg, zpow_one]
      field_simp
      simp
  · refine ⟨ds.take point.toNat, ds.drop point.toNat, rfl,
      fun c hc => hds c (List.mem_of_mem_take hc), fun c hc => hds c (List.mem_of_mem_drop hc),
      ?_, ?_, ?_⟩
    · simp only [ne_eq, List.take_eq_nil_iff, not_or]
      exact ⟨by omega, hne⟩
    · simp only [ne_eq, List.drop_eq_nil_iff, not_le]
      omega
    · simp only [ofDigits, value, List.take_append_drop, List.length_drop]
      congr 2
      omega

theorem isDigit_of_mem_digits {d : Decimal} {c : Char} (hc : c ∈ d.digits) : c.isDigit = true :=
  Nat.isDigit_of_mem_toDigits (by decide) (by decide) hc

/-- The exponent form has a letter in it. -/
theorem e_mem_scientific (ds : List Char) (exponent : Int) : 'e' ∈ scientific ds exponent := by
  simp [scientific]

end Decimal

namespace Binary64

/-- A finite number has a positional text exactly if the first digit of its shortest decimal stands
at one of the positional places. -/
theorem hasPositionalText_finite {negative : Bool} {mantissa : Nat} {exponent : Int} :
    (finite negative mantissa exponent).hasPositionalText = true ↔
      let d := shortest mantissa exponent
      let point : Int := d.digits.length + d.exponent
      Decimal.leastPositional ≤ point - 1 ∧ point - 1 < Decimal.leastScientific := by
  dsimp only
  generalize hd : shortest mantissa exponent = d
  constructor
  · intro h
    by_contra hpoint
    -- the text is in exponent form, of which the letter is no part of a positional text
    have he : 'e' ∈ (finite negative mantissa exponent).text := by
      have hscientific :=
        Decimal.e_mem_scientific d.digits ((d.digits.length + d.exponent : Int) - 1)
      cases negative <;> simp only [text, signed, hd, Decimal.text, hpoint, ↓reduceIte] <;>
        simp [hscientific]
    exact absurd (List.all_eq_true.1 h 'e' he) (by decide)
  · intro hpoint
    obtain ⟨whole, fraction, hpositional, hwhole, hfraction, -⟩ := Decimal.positional_spec
      (fun c (hc : c ∈ d.digits) => Decimal.isDigit_of_mem_digits hc) Nat.toDigits_ne_nil
      (d.digits.length + d.exponent : Int)
    have hall : (whole ++ '.' :: fraction).all (fun c => c.isDigit || c == '.' || c == '-') =
        true := by
      rw [List.all_eq_true]
      intro c hc
      rcases List.mem_append.1 hc with hc | hc
      · simp [hwhole c hc]
      · rcases List.mem_cons.1 hc with rfl | hc
        · simp
        · simp [hfraction c hc]
    have htext : (finite negative mantissa exponent).text =
        signed negative (whole ++ '.' :: fraction) := by
      simp only [text, hd, Decimal.text, hpoint, and_self, ↓reduceIte, hpositional]
    rw [hasPositionalText, htext]
    cases negative with
    | false => exact hall
    | true => exact List.all_cons.trans (by rw [hall]; rfl)

/-- What has a positional text is a finite number, and its text is digits, a point, and digits. -/
theorem text_of_hasPositionalText {x : Binary64} (h : x.hasPositionalText = true) :
    ∃ negative mantissa exponent, x = .finite negative mantissa exponent ∧
      let d := shortest mantissa exponent
      let point : Int := d.digits.length + d.exponent
      Decimal.leastPositional ≤ point - 1 ∧
        x.text = signed negative (Decimal.positional d.digits point) := by
  cases x with
  | infinite negative => cases negative <;> exact absurd h (by decide)
  | nan => exact absurd h (by decide)
  | finite negative mantissa exponent =>
    have hpoint := hasPositionalText_finite.1 h
    refine ⟨negative, mantissa, exponent, rfl, hpoint.1, ?_⟩
    simp only [text, Decimal.text, hpoint, and_self, ↓reduceIte]

theorem value_exactDecimal (mantissa : Nat) (exponent : Int) :
    (exactDecimal mantissa exponent).value = mantissa * 2 ^ exponent := by
  unfold exactDecimal
  split_ifs with he
  · obtain ⟨n, rfl⟩ := Int.eq_ofNat_of_zero_le he
    simp [Decimal.value]
  · obtain ⟨n, hn⟩ := Int.eq_ofNat_of_zero_le (show 0 ≤ -exponent by omega)
    obtain rfl : exponent = -(n : Int) := by omega
    have hten : (10 : ℚ) ^ n = 5 ^ n * 2 ^ n := by rw [← mul_pow]; norm_num
    simp only [Decimal.value, neg_neg, Int.toNat_natCast, zpow_neg, zpow_natCast, hten,
      Nat.pow_eq, Nat.cast_mul, Nat.cast_pow, Nat.cast_ofNat]
    field_simp

/-- The least power of two of the format is far above the bound at which a decimal is read as
zero. -/
theorem pow_exponentBound_le : (10 : ℚ) ^ (-Decimal.exponentBound) ≤ 2 ^ minExponent := by
  have hpow : (2 : ℚ) ^ (1074 : Nat) ≤ 10 ^ (400 : Nat) :=
    calc (2 : ℚ) ^ (1074 : Nat) = (2 ^ 3) ^ (358 : Nat) := pow_mul 2 3 358
      _ ≤ 10 ^ (358 : Nat) := by gcongr; norm_num
      _ ≤ 10 ^ (400 : Nat) := by gcongr <;> norm_num
  rw [Decimal.exponentBound, minExponent, zpow_neg, zpow_neg]
  exact inv_anti₀ (by positivity) (by exact_mod_cast hpow)

/-- The exact decimal of a number of the format is rounded to that number. -/
theorem toBinary64_exactDecimal {negative : Bool} {mantissa : Nat} {exponent : Int}
    (hx : InFormat (.finite negative mantissa exponent)) (hm : mantissa ≠ 0) :
    (exactDecimal mantissa exponent).toBinary64 false = .finite false mantissa exponent := by
  have hx' : InFormat (.finite false mantissa exponent) := hx
  have hone : (1 : ℚ) ≤ mantissa := by exact_mod_cast Nat.one_le_iff_ne_zero.2 hm
  have hmin : (10 : ℚ) ^ (-Decimal.exponentBound) ≤ (exactDecimal mantissa exponent).value := by
    rw [value_exactDecimal]
    calc (10 : ℚ) ^ (-Decimal.exponentBound) ≤ 2 ^ minExponent := pow_exponentBound_le
      _ ≤ 2 ^ exponent := zpow_le_zpow_right₀ one_le_two hx.2.1
      _ ≤ mantissa * 2 ^ exponent := le_mul_of_one_le_left (by positivity) hone
  have hc : (exactDecimal mantissa exponent).coefficient ≠ 0 := by
    rw [ne_eq, ← Decimal.value_eq_zero_iff, value_exactDecimal]
    positivity
  unfold exactDecimal at hmin hc ⊢
  split_ifs at hmin hc ⊢ with he
  · rw [Decimal.toBinary64_eq_ofRatio false hc (show (0 : Int) ≤ _ by decide) hmin]
    apply ofRatio_exact false hx' hm (by positivity)
    obtain ⟨n, rfl⟩ := Int.eq_ofNat_of_zero_le he
    simp
  · rw [Decimal.toBinary64_eq_ofRatio false hc (by simp only [Decimal.exponentBound]; omega) hmin]
    apply ofRatio_exact false hx' hm (by positivity)
    obtain ⟨n, hn⟩ := Int.eq_ofNat_of_zero_le (show 0 ≤ -exponent by omega)
    obtain rfl : exponent = -(n : Int) := by omega
    have hten : 10 ^ n = 5 ^ n * 2 ^ n := mul_pow 5 2 n
    simp only [neg_neg, Int.toNat_natCast, Int.toNat_neg_natCast, pow_zero, mul_one, hten,
      Nat.pow_eq, mul_assoc]

theorem toBinary64_shortestFrom {mantissa : Nat} {exponent : Int} {exact : Decimal}
    (h : exact.toBinary64 false = .finite false mantissa exponent) (fuel count : Nat) :
    (shortestFrom mantissa exponent exact fuel count).toBinary64 false =
      .finite false mantissa exponent := by
  fun_induction shortestFrom mantissa exponent exact fuel count with
  | case1 => exact h
  | case2 fuel count d hd => simpa using List.find?_some hd
  | case3 fuel count hd ih => exact ih

/-- The shortest decimal of a number stands for something that rounds to the number. -/
theorem exists_value_shortest {negative : Bool} {mantissa : Nat} {exponent : Int}
    (hx : InFormat (.finite negative mantissa exponent)) (hm : mantissa ≠ 0) :
    ∃ d : Decimal, d.value = (shortest mantissa exponent).value ∧ d.coefficient ≠ 0 ∧
      d.exponent ≤ Decimal.exponentBound ∧
      d.toBinary64 false = .finite false mantissa exponent := by
  refine ⟨shortestFrom mantissa exponent (exactDecimal mantissa exponent) maxDigits 1, ?_, ?_⟩
  · simp only [shortest, hm, ↓reduceIte, Decimal.value_trim]
  · have hround := toBinary64_shortestFrom (toBinary64_exactDecimal hx hm) maxDigits 1
    generalize shortestFrom mantissa exponent (exactDecimal mantissa exponent) maxDigits 1 = d
      at hround ⊢
    refine ⟨?_, ?_, hround⟩
    · intro hc
      simp only [Decimal.toBinary64, hc, ↓reduceIte, zero, finite.injEq] at hround
      exact hm hround.2.1.symm
    · by_contra hbig
      simp only [Decimal.toBinary64, show d.exponent > Decimal.exponentBound by omega,
        ↓reduceIte] at hround
      split at hround
      · next hc =>
        simp only [zero, finite.injEq] at hround
        exact hm hround.2.1.symm
      · cases hround

/-- **A positional text reads back.**  It is digits, a point, and digits, after the sign; and of a
number of the format it is rounded to that number. -/
theorem text_reads_back {x : Binary64} (h : x.hasPositionalText = true) :
    ∃ negative mantissa exponent whole fraction, x = .finite negative mantissa exponent ∧
      x.text = signed negative (whole ++ '.' :: fraction) ∧
      (∀ c ∈ whole, c.isDigit = true) ∧ (∀ c ∈ fraction, c.isDigit = true) ∧
      whole ≠ [] ∧ fraction ≠ [] ∧
      (InFormat x → (Decimal.ofDigits whole fraction 0).toBinary64 false =
        .finite false mantissa exponent) := by
  obtain ⟨negative, mantissa, exponent, rfl, hpoint, htext⟩ := text_of_hasPositionalText h
  obtain ⟨whole, fraction, hpos, hw, hf, hwne, hfne, hvalue⟩ :=
    Decimal.positional_spec
      (fun c (hc : c ∈ (shortest mantissa exponent).digits) => Decimal.isDigit_of_mem_digits hc)
      Nat.toDigits_ne_nil
      ((shortest mantissa exponent).digits.length + (shortest mantissa exponent).exponent : Int)
  refine ⟨negative, mantissa, exponent, whole, fraction, rfl, by rw [htext, hpos], hw, hf, hwne,
    hfne, fun hx => ?_⟩
  -- the text stands for the same value as the shortest decimal, in other digits perhaps
  have hread : (Decimal.ofDigits whole fraction 0).value = (shortest mantissa exponent).value := by
    rw [hvalue, Decimal.digits, Nat.ofDigitChars_ten_toDigits, Decimal.value]
    congr 2
    omega
  by_cases hm : mantissa = 0
  · have hc : (Decimal.ofDigits whole fraction 0).coefficient = 0 := by
      rw [← Decimal.value_eq_zero_iff, hread, Decimal.value_eq_zero_iff]
      simp [shortest, hm]
    have he : exponent = minExponent := by
      rcases hx.2.2.2 with hbig | he
      · rw [hm] at hbig
        exact absurd hbig (by decide)
      · exact he
    simp [Decimal.toBinary64, hc, zero, hm, he]
  · obtain ⟨d, hd, hdc, hdmax, hround⟩ := exists_value_shortest hx hm
    -- a text in positional form is not that of a number near zero
    have hmin : (10 : ℚ) ^ (-Decimal.exponentBound) ≤ d.value := by
      have hc : (shortest mantissa exponent).coefficient ≠ 0 := by
        rwa [ne_eq, ← Decimal.value_eq_zero_iff, ← hd, Decimal.value_eq_zero_iff]
      rw [hd, Decimal.pow_le_value_iff hc]
      simp only [Decimal.exponentBound, Decimal.leastPositional] at hpoint ⊢
      omega
    have hmax : (Decimal.ofDigits whole fraction 0).exponent ≤ Decimal.exponentBound := by
      simp only [Decimal.ofDigits, Decimal.exponentBound]
      omega
    rw [← hround]
    exact (Decimal.toBinary64_congr false hdc hdmax hmax hmin (hd.trans hread.symm)).symm

end Binary64

end BraceScript
