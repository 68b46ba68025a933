import BraceScript.Proofs.Number

/-!
# Numbers that come from rounding

Rounding a ratio gives a number as the format stores it (`Binary64.inFormat_ofRatio`), and so does
reading a decimal (`Decimal.inFormat_toBinary64`).

A number of the format is shown without an exponent exactly when it is zero or its magnitude lies
from `10 ^ (-4)` up to, but not including, `10 ^ 16` (`Binary64.hasPositionalText_iff`).
-/

namespace BraceScript

/-! ### Rounding a ratio -/

theorem roundHalfEven_le {num den n : Nat} (h : num < n * den) : roundHalfEven num den ≤ n := by
  have hquotient : num / den < n := Nat.div_lt_of_lt_mul (by rwa [mul_comm])
  unfold roundHalfEven
  dsimp only
  split_ifs <;> omega

theorem le_roundHalfEven {num den n : Nat} (hd : 0 < den) (h : n * den ≤ num) :
    n ≤ roundHalfEven num den := by
  have hquotient : n ≤ num / den := (Nat.le_div_iff_mul_le hd).2 h
  unfold roundHalfEven
  dsimp only
  split_ifs <;> omega

namespace Binary64

/-- The ratio that is rounded to a mantissa, by its value. -/
theorem scaled_div (num den : Nat) (exponent : Int) :
    ((num * 2 ^ (-exponent).toNat : Nat) : ℚ) / ((den * 2 ^ exponent.toNat : Nat) : ℚ) =
      (num : ℚ) / den / 2 ^ exponent := by
  have hpow := pow_toNat_div 2 two_ne_zero (-exponent)
  rw [neg_neg] at hpow
  push_cast at hpow ⊢
  rw [mul_div_mul_comm, hpow, zpow_neg, div_eq_mul_inv ((num : ℚ) / den)]

/-- Before it is checked for a carry, a mantissa has at most 53 bits and their largest value, and
all 53 of them unless the exponent is the least one. -/
theorem mantissa_bounds {num den : Nat} (hn : 0 < num) (hd : 0 < den) {exponent : Int}
    (he : exponent = max minExponent (floorLog2 num den - (precision - 1))) :
    let mantissa := roundHalfEven (num * 2 ^ (-exponent).toNat) (den * 2 ^ exponent.toNat)
    mantissa ≤ 2 ^ precision ∧ (2 ^ (precision - 1) ≤ mantissa ∨ exponent = minExponent) := by
  have hratio : (0 : ℚ) < (num : ℚ) / den := by positivity
  have hden : 0 < den * 2 ^ exponent.toNat := by positivity
  have hden' : (0 : ℚ) < (den * 2 ^ exponent.toNat : Nat) := by exact_mod_cast hden
  have hlog := floorLog2_eq_log hn hd
  have hvalue := scaled_div num den exponent
  constructor
  · apply roundHalfEven_le
    have hlt : (num : ℚ) / den < 2 ^ (floorLog2 num den + 1) := by
      rw [hlog]
      exact_mod_cast Int.lt_zpow_succ_log_self one_lt_two ((num : ℚ) / den)
    have hle : (2 : ℚ) ^ (floorLog2 num den + 1) ≤ 2 ^ ((precision : Int) + exponent) := by
      apply zpow_le_zpow_right₀ one_le_two
      simp only [precision] at he ⊢
      omega
    have hscaled : ((num * 2 ^ (-exponent).toNat : Nat) : ℚ) / (den * 2 ^ exponent.toNat : Nat) <
        2 ^ precision := by
      rw [hvalue, div_lt_iff₀ (by positivity), ← zpow_natCast, ← zpow_add₀ two_ne_zero]
      exact hlt.trans_le hle
    rw [div_lt_iff₀ hden'] at hscaled
    exact_mod_cast hscaled
  · rcases le_total (floorLog2 num den - (precision - 1)) minExponent with hmin | hmin
    · exact .inr (by rw [he, max_eq_left hmin])
    · left
      rw [max_eq_right hmin] at he
      apply le_roundHalfEven hden
      have hge : (2 : ℚ) ^ floorLog2 num den ≤ (num : ℚ) / den := by
        rw [hlog]
        exact_mod_cast Int.zpow_log_le_self one_lt_two hratio
      have hscaled : (2 : ℚ) ^ (precision - 1) ≤
          ((num * 2 ^ (-exponent).toNat : Nat) : ℚ) / (den * 2 ^ exponent.toNat : Nat) := by
        rw [hvalue, le_div_iff₀ (by positivity), ← zpow_natCast, ← zpow_add₀ two_ne_zero]
        refine le_trans (zpow_le_zpow_right₀ one_le_two ?_) hge
        simp only [precision] at he ⊢
        omega
      rw [le_div_iff₀ hden'] at hscaled
      exact_mod_cast hscaled

/-- **Rounding a ratio gives a number of the format.** -/
theorem inFormat_ofRatio (negative : Bool) (num : Nat) {den : Nat} (hd : 0 < den) :
    (ofRatio negative num den).InFormat := by
  have hzero : (zero negative).InFormat := by cases negative <;> decide
  unfold ofRatio
  split_ifs with hn
  · exact hzero
  dsimp only
  generalize he : max minExponent (floorLog2 num den - (precision - 1)) = exponent
  obtain ⟨hle, hnormal⟩ := mantissa_bounds (Nat.pos_of_ne_zero hn) hd he.symm
  have hmin : minExponent ≤ exponent := he ▸ le_max_left _ _
  simp only [Nat.pow_eq]
  generalize roundHalfEven (num * 2 ^ (-exponent).toNat) (den * 2 ^ exponent.toNat) = mantissa
    at hle hnormal ⊢
  split_ifs with hcarry hinfinite hinfinite
  · trivial
  · -- the carry leaves the least mantissa of the next exponent
    refine ⟨(by decide : 2 ^ (precision - 1) < 2 ^ precision), ?_, not_lt.1 hinfinite, .inl le_rfl⟩
    dsimp only
    omega
  · trivial
  · exact ⟨lt_of_le_of_ne hle hcarry, hmin, not_lt.1 hinfinite, hnormal⟩

theorem InFormat.neg {x : Binary64} (h : x.InFormat) : x.neg.InFormat := by
  cases x <;> exact h

end Binary64

theorem Decimal.inFormat_toBinary64 (negative : Bool) (d : Decimal) :
    (d.toBinary64 negative).InFormat := by
  have hzero : (Binary64.zero negative).InFormat := by cases negative <;> decide
  unfold toBinary64
  split_ifs
  · exact hzero
  · trivial
  · exact hzero
  · exact Binary64.inFormat_ofRatio negative _ (Nat.pow_pos (by decide))

/-! ### The decade of a decimal -/

namespace Binary64

/-- The neighbours of a decimal lie in its decade, or are the power of ten above it. -/
theorem log_neighbours {exact d : Decimal} (hc : exact.coefficient ≠ 0) {count : Nat}
    (hcount : 0 < count) (hd : d ∈ neighbours exact count) :
    Int.log 10 d.value = Int.log 10 exact.value ∨ d.value = 10 ^ (Int.log 10 exact.value + 1) := by
  have hlength : 0 < exact.digits.length := Nat.length_toDigits_pos
  have hlog := Decimal.log_value hc
  have hlow := exact.pow_digits_le_coefficient hc
  have hhigh := exact.coefficient_lt_pow_digits
  obtain ⟨surplus, hsurplus⟩ : ∃ n, n = exact.digits.length - count := ⟨_, rfl⟩
  obtain ⟨k, hk⟩ : ∃ k, exact.digits.length = k + 1 + surplus :=
    ⟨exact.digits.length - 1 - surplus, by omega⟩
  -- the leading digits of the coefficient
  obtain ⟨leading, hleading⟩ : ∃ n, n = exact.coefficient / 10 ^ surplus := ⟨_, rfl⟩
  have hge : 10 ^ k ≤ leading := by
    rw [hleading, Nat.le_div_iff_mul_le (by positivity), ← pow_add]
    convert hlow using 2
    omega
  have hlt : leading < 10 ^ (k + 1) := by
    rw [hleading, Nat.div_lt_iff_lt_mul (by positivity), ← pow_add, ← hk]
    exact hhigh
  have hmem : d = ⟨leading, exact.exponent + surplus⟩ ∨
      d = ⟨leading + 1, exact.exponent + surplus⟩ := by
    simp only [neighbours, Nat.pow_eq, ← hsurplus, ← hleading] at hd
    split_ifs at hd
    · exact .inl (List.mem_singleton.1 hd)
    · simpa using hd
    · simpa [or_comm] using hd
  have hsame {d : Decimal} (hexponent : d.exponent = exact.exponent + surplus)
      (hge : 10 ^ k ≤ d.coefficient) (hlt : d.coefficient < 10 ^ (k + 1)) :
      Int.log 10 d.value = Int.log 10 exact.value := by
    rw [Decimal.log_of_bounds hge hlt, hlog]
    omega
  rcases hmem with rfl | rfl
  · exact .inl (hsame rfl hge hlt)
  · rcases Nat.lt_or_eq_of_le (Nat.succ_le_of_lt hlt) with hbelow | hpower
    · exact .inl (hsame rfl (Nat.le_succ_of_le hge) hbelow)
    · right
      have hcast : ((leading + 1 : Nat) : ℚ) = 10 ^ (k + 1) := by exact_mod_cast hpower
      rw [Decimal.value, hcast, hlog, ← zpow_natCast, ← zpow_add₀ (by norm_num)]
      congr 1
      dsimp only
      omega

theorem log_shortestFrom (mantissa : Nat) (exponent : Int) {exact : Decimal}
    (hc : exact.coefficient ≠ 0) (fuel : Nat) {count : Nat} (hcount : 0 < count) :
    let d := shortestFrom mantissa exponent exact fuel count
    Int.log 10 d.value = Int.log 10 exact.value ∨ d.value = 10 ^ (Int.log 10 exact.value + 1) := by
  fun_induction shortestFrom mantissa exponent exact fuel count with
  | case1 => exact .inl rfl
  | case2 fuel count d hd => exact log_neighbours hc hcount (List.mem_of_find?_eq_some hd)
  | case3 fuel count hd ih => exact ih (Nat.succ_pos _)

/-! ### Positional texts -/

/-- The number is zero, or its magnitude is at least `10 ^ (-4)` and below `10 ^ 16`. -/
def IsModerate : Binary64 → Prop
  | .finite _ mantissa exponent =>
    mantissa = 0 ∨ ((10 : ℚ) ^ Decimal.leastPositional ≤ mantissa * 2 ^ exponent ∧
      (mantissa : ℚ) * 2 ^ exponent < 10 ^ Decimal.leastScientific)
  | _ => False

/-- A power of ten that is not above the number it is rounded to is no shortest decimal of a number
below it. -/
theorem value_shortest_ne {mantissa mantissa' : Nat} {exponent exponent' power : Int}
    (hx : InFormat (.finite false mantissa exponent)) (hm : mantissa ≠ 0)
    (hround : Decimal.toBinary64 false ⟨1, power⟩ = .finite false mantissa' exponent')
    (hle : (10 : ℚ) ^ power ≤ mantissa' * 2 ^ exponent')
    (hpower : power ≤ Decimal.exponentBound) (hmin : -Decimal.exponentBound ≤ power)
    (hlt : (mantissa : ℚ) * 2 ^ exponent < 10 ^ power) :
    (shortest mantissa exponent).value ≠ 10 ^ power := by
  intro hvalue
  obtain ⟨d, hd, hc, hmax, hrounds⟩ := exists_value_shortest hx hm
  have hone : d.value = Decimal.value ⟨1, power⟩ := by
    rw [hd, hvalue, Decimal.value, Nat.cast_one, one_mul]
  have hbound : (10 : ℚ) ^ (-Decimal.exponentBound) ≤ d.value := by
    rw [hd, hvalue]
    exact zpow_le_zpow_right₀ (by norm_num) hmin
  have hsame := Decimal.toBinary64_congr false hc hmax hpower hbound hone
  rw [hrounds, hround, finite.injEq] at hsame
  obtain ⟨-, rfl, rfl⟩ := hsame
  exact absurd hlt (not_lt.2 hle)

/-- The shortest decimal of a number lies in its decade, or is the power of ten above it. -/
theorem log_shortest {mantissa : Nat} {exponent : Int}
    (hx : InFormat (.finite false mantissa exponent)) (hm : mantissa ≠ 0) :
    let d := shortest mantissa exponent
    let x : ℚ := mantissa * 2 ^ exponent
    0 < x ∧ d.coefficient ≠ 0 ∧
      (Int.log 10 d.value = Int.log 10 x ∨ d.value = 10 ^ (Int.log 10 x + 1)) := by
  intro d x
  have hpos : 0 < x := by
    have : (0 : ℚ) < mantissa := by exact_mod_cast Nat.pos_of_ne_zero hm
    positivity
  have hexact : (exactDecimal mantissa exponent).coefficient ≠ 0 := by
    rw [ne_eq, ← Decimal.value_eq_zero_iff, value_exactDecimal]
    exact hpos.ne'
  have hshortest : d.coefficient ≠ 0 := by
    obtain ⟨d', hd', hc, -⟩ := exists_value_shortest hx hm
    rwa [ne_eq, ← Decimal.value_eq_zero_iff, ← hd', Decimal.value_eq_zero_iff]
  refine ⟨hpos, hshortest, ?_⟩
  have hlog : _ ∨ _ := log_shortestFrom mantissa exponent hexact maxDigits one_pos
  have hd :
      d = (shortestFrom mantissa exponent (exactDecimal mantissa exponent) maxDigits 1).trim :=
    if_neg hm
  rwa [value_exactDecimal, ← Decimal.value_trim, ← hd] at hlog

/-- **Which numbers have a positional text**: those of moderate magnitude.  The shortest decimal
of a number below `10 ^ 16` could be that power itself, and likewise for `10 ^ (-4)`; it is not,
because both powers are rounded to numbers that are not below them. -/
theorem hasPositionalText_iff {x : Binary64} (hx : x.InFormat) :
    x.hasPositionalText = true ↔ x.IsModerate := by
  cases x with
  | nan => exact iff_of_false (by decide) id
  | infinite negative => exact iff_of_false (by cases negative <;> decide) id
  | finite negative mantissa exponent =>
    rw [hasPositionalText_finite, IsModerate]
    by_cases hm : mantissa = 0
    · have hzero : shortest mantissa exponent = ⟨0, 0⟩ := by rw [shortest, if_pos hm]
      exact iff_of_true (by rw [hzero]; decide) (.inl hm)
    have hx' : InFormat (.finite false mantissa exponent) := hx
    obtain ⟨hpos, hc, hlog⟩ := log_shortest hx' hm
    have hlow := Int.zpow_le_iff_le_log (R := ℚ) (b := 10) (by decide)
      (x := Decimal.leastPositional) hpos
    have hhigh := Int.lt_zpow_iff_log_lt (R := ℚ) (b := 10) (by decide)
      (x := Decimal.leastScientific) hpos
    rw [Nat.cast_ofNat] at hlow hhigh
    have hleast : Decimal.toBinary64 false ⟨1, Decimal.leastPositional⟩ =
        .finite false 7378697629483821 (-66) := by decide
    have hmost : Decimal.toBinary64 false ⟨1, Decimal.leastScientific⟩ =
        .finite false 5000000000000000 1 := by decide
    have hfirst : (mantissa : ℚ) * 2 ^ exponent < 10 ^ Decimal.leastPositional →
        (shortest mantissa exponent).value ≠ 10 ^ Decimal.leastPositional :=
      value_shortest_ne hx' hm hleast (by norm_num [Decimal.leastPositional]) (by decide)
        (by decide)
    have hlast : (mantissa : ℚ) * 2 ^ exponent < 10 ^ Decimal.leastScientific →
        (shortest mantissa exponent).value ≠ 10 ^ Decimal.leastScientific :=
      value_shortest_ne hx' hm hmost (by norm_num [Decimal.leastScientific]) (by decide) (by decide)
    dsimp only
    rw [← Decimal.log_value hc]
    simp only [hm, false_or, hlow, hhigh]
    rcases hlog with hlog | hlog
    · rw [hlog]
    · rw [hlog] at hfirst hlast
      have hlogs : Int.log 10 ((10 : ℚ) ^ (Int.log 10 ((mantissa : ℚ) * 2 ^ exponent) + 1)) =
          Int.log 10 ((mantissa : ℚ) * 2 ^ exponent) + 1 := by
        exact_mod_cast Int.log_zpow (R := ℚ) (b := 10) (by decide) _
      have hne : Int.log 10 ((mantissa : ℚ) * 2 ^ exponent) + 1 ≠ Decimal.leastPositional :=
        fun heq => hfirst (not_le.1 fun hle => by have := hlow.1 hle; omega) (by rw [heq])
      have hne' : Int.log 10 ((mantissa : ℚ) * 2 ^ exponent) + 1 ≠ Decimal.leastScientific :=
        fun heq => hlast (hhigh.2 (by omega)) (by rw [heq])
      rw [hlog, hlogs]
      omega

end Binary64

end BraceScript
