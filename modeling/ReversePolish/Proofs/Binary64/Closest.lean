import ReversePolish.Binary64.Nearest
import ReversePolish.Proofs.Binary64.Finite
import ReversePolish.Proofs.Rounding

/-! # The number nearest to a fraction

A fraction below the largest finite number by less than half a last place is rounded to a finite
number, and no other is closer to it. Any greater one becomes infinite. -/

namespace ReversePolish.Binary64

variable {num den : ℕ}

theorem num_pos_of_quotient_pos (h : (0 : ℚ) < num / den) : 0 < num := by
  refine Nat.pos_of_ne_zero fun hzero => ?_
  rw [hzero, Nat.cast_zero, zero_div] at h
  exact lt_irrefl _ h

/-! ## The last place -/

/-- The quotient in units of a power of two. -/
theorem scaled_shift (num den : ℕ) (q : ℤ) :
    ((num <<< (-q).toNat : ℕ) / (den <<< q.toNat : ℕ) : ℚ) = num / den / 2 ^ q := by
  rw [Nat.shiftLeft_eq, Nat.shiftLeft_eq]
  exact_mod_cast scaled_quotient 2 num den q

theorem quotient_log2_bounds (hnum : 0 < num) (hden : 0 < den) :
    (2 : ℚ) ^ ((num.log2 : ℤ) - den.log2 - 1) ≤ num / den ∧
      (num / den : ℚ) < 2 ^ ((num.log2 : ℤ) - den.log2 + 1) := by
  have hnum' : (0 : ℚ) < num := by exact_mod_cast hnum
  have hden' : (0 : ℚ) < den := by exact_mod_cast hden
  have hlow : (2 : ℚ) ^ num.log2 ≤ num := by exact_mod_cast Nat.log2_self_le hnum.ne'
  have hhigh : (num : ℚ) < 2 ^ (num.log2 + 1) := by exact_mod_cast Nat.lt_log2_self
  have hlow' : (2 : ℚ) ^ den.log2 ≤ den := by exact_mod_cast Nat.log2_self_le hden.ne'
  have hhigh' : (den : ℚ) < 2 ^ (den.log2 + 1) := by exact_mod_cast Nat.lt_log2_self
  have hdown : (2 : ℚ) ^ ((num.log2 : ℤ) - den.log2 - 1) = 2 ^ num.log2 / 2 ^ (den.log2 + 1) := by
    rw [sub_sub, zpow_sub₀ two_ne_zero, zpow_natCast]
    norm_cast
  have hup : (2 : ℚ) ^ ((num.log2 : ℤ) - den.log2 + 1) = 2 ^ (num.log2 + 1) / 2 ^ den.log2 := by
    rw [sub_add_eq_add_sub, zpow_sub₀ two_ne_zero, zpow_natCast]
    norm_cast
  rw [hdown, hup]
  exact ⟨div_le_div₀ hnum'.le hlow hden' hhigh'.le, div_lt_div₀ hhigh hlow' (by positivity) (by positivity)⟩

theorem shiftLeft_lt_iff (hden : 0 < den) (q : ℤ) :
    num <<< (-q).toNat < den <<< (q.toNat + fractionBits + 1) ↔
      (num / den : ℚ) < 2 ^ 53 * 2 ^ q := by
  have hpos : (0 : ℚ) < (den <<< q.toNat : ℕ) := by
    rw [Nat.shiftLeft_eq]
    positivity
  have hsplit : den <<< (q.toNat + fractionBits + 1) = 2 ^ 53 * den <<< q.toNat := by
    rw [fractionBits, add_assoc, Nat.shiftLeft_add, Nat.shiftLeft_eq (den <<< q.toNat), mul_comm]
  rw [hsplit, ← div_lt_iff₀ (zpow_pos two_pos q), ← scaled_shift, div_lt_iff₀ hpos]
  norm_cast

/-- In front of the last place there are 53 bits, of which the first is set unless there is no lower
last place. -/
theorem lastPlace_bounds (hnum : 0 < num) (hden : 0 < den) :
    -1074 ≤ lastPlace num den ∧ (num / den : ℚ) < 2 ^ 53 * 2 ^ lastPlace num den ∧
      (-1074 < lastPlace num den → 2 ^ 52 * 2 ^ lastPlace num den ≤ (num / den : ℚ)) := by
  have hmono {q r : ℤ} (h : q ≤ r) : (2 : ℚ) ^ q ≤ 2 ^ r := zpow_le_zpow_right₀ one_le_two h
  obtain ⟨q, hq, hlow, hhigh⟩ : ∃ q, lastPlace num den = max (-1074) q ∧
      2 ^ (52 + q) ≤ (num / den : ℚ) ∧ (num / den : ℚ) < 2 ^ (53 + q) := by
    obtain ⟨hlow, hhigh⟩ := quotient_log2_bounds hnum hden
    simp only [lastPlace, leastExponent, shiftLeft_lt_iff hden, two_pow_mul_zpow]
    refine ⟨_, rfl, ?_⟩
    rw [fractionBits]
    split
    · next hlt => exact ⟨(hmono (by omega)).trans hlow, hlt⟩
    · next hge =>
      exact ⟨(hmono (by omega)).trans (not_lt.mp hge), hhigh.trans_le (hmono (by omega))⟩
  simp only [two_pow_mul_zpow, hq]
  refine ⟨le_max_left _ _, hhigh.trans_le (hmono (by omega)), fun hmore => ?_⟩
  exact (hmono (by omega)).trans hlow

/-! ## The significand -/

theorem roundedSignificand_isHalfEven (num : ℕ) (hden : 0 < den) (q : ℤ) :
    IsHalfEven (num / den / 2 ^ q) (roundedSignificand num den q) := by
  have hpos : 0 < den <<< q.toNat := by
    rw [Nat.shiftLeft_eq]
    positivity
  rw [← scaled_shift]
  exact divHalfEven_isHalfEven hpos _

/-- Rounding may carry into one bit more. -/
theorem roundedSignificand_bounds (hnum : 0 < num) (hden : 0 < den) :
    roundedSignificand num den (lastPlace num den) ≤ 2 ^ 53 ∧
      (-1074 < lastPlace num den → 2 ^ 52 ≤ roundedSignificand num den (lastPlace num den)) := by
  obtain ⟨-, hhigh, hlow⟩ := lastPlace_bounds hnum hden
  have hpos : (0 : ℚ) < 2 ^ lastPlace num den := zpow_pos two_pos _
  have hnearest := roundedSignificand_isHalfEven num hden (lastPlace num den)
  refine ⟨hnearest.le_of_ge ?_, fun hmore => hnearest.le_of_le ?_⟩
  · rw [div_le_iff₀ hpos]
    exact_mod_cast hhigh.le
  · rw [le_div_iff₀ hpos]
    exact_mod_cast hlow hmore

/-- A carry moves the last place up. -/
theorem ofParts_carry (negative : Bool) {q : ℤ} (hq : -1074 ≤ q) :
    ofParts negative (2 ^ 53) q = ofParts negative (2 ^ 52) (q + 1) := by
  rw [ofParts, bits_carry hq, ofParts]

/-- The parts of a number after rounding, and after the carry if there is one. -/
theorem exists_isCanonical {m : ℕ} {q : ℤ} (hm : m ≤ 2 ^ 53) (hleast : -1074 ≤ q)
    (hfull : -1074 < q → 2 ^ 52 ≤ m)
    (hbits : (q - leastExponent).toNat * 2 ^ fractionBits + m < infinityBits) :
    ∃ m' q', IsCanonical m' q' ∧ (m' : ℚ) * 2 ^ q' = m * 2 ^ q ∧
      ∀ negative, ofParts negative m q = ofParts negative m' q' := by
  simp only [infinityBits, leastExponent, fractionBits, Nat.shiftLeft_eq] at hbits
  rcases Nat.lt_or_eq_of_le hm with hlt | rfl
  · exact ⟨m, q, ⟨hlt, hleast, by omega, hfull⟩, rfl, fun _ => rfl⟩
  · refine ⟨2 ^ 52, q + 1, ⟨by decide, by omega, by omega, fun _ => le_rfl⟩, ?_,
      fun negative => ofParts_carry negative hleast⟩
    rw [zpow_add_one₀ two_ne_zero]
    push_cast
    ring

/-! ## The range -/

/-- The least number that becomes infinite: half a last place beyond the largest finite one. -/
def overflowBound : ℚ := (2 ^ 53 - 1 / 2) * 2 ^ (971 : ℤ)

theorem overflowBound_eq : overflowBound = ((2 ^ 54 - 1) * 2 ^ 970 : ℕ) := by
  have hplace : (2 : ℚ) ^ (971 : ℤ) = 2 ^ (970 : ℤ) * 2 := zpow_add_one₀ two_ne_zero 970
  rw [overflowBound, hplace, zpow_ofNat, Nat.cast_mul, Nat.cast_pow, Nat.cast_ofNat]
  generalize (2 : ℚ) ^ 970 = unit
  norm_num
  ring

theorem bits_lt_iff (hnum : 0 < num) (hden : 0 < den) :
    (lastPlace num den - leastExponent).toNat * 2 ^ fractionBits +
        roundedSignificand num den (lastPlace num den) < infinityBits ↔
      (num / den : ℚ) < overflowBound := by
  obtain ⟨hleast, hhigh, hlow⟩ := lastPlace_bounds hnum hden
  obtain ⟨hcarry, hfull⟩ := roundedSignificand_bounds hnum hden
  have hnearest := roundedSignificand_isHalfEven num hden (lastPlace num den)
  have hdouble {q r : ℤ} (h : q < r) : (2 : ℚ) ^ q * 2 ≤ 2 ^ r := by
    rw [← zpow_add_one₀ two_ne_zero]
    exact zpow_le_zpow_right₀ one_le_two h
  have hpos : (0 : ℚ) < 2 ^ (971 : ℤ) := zpow_pos two_pos _
  rw [overflowBound]
  generalize roundedSignificand num den (lastPlace num den) = m at *
  generalize lastPlace num den = q at *
  generalize (num / den : ℚ) = x at *
  simp only [infinityBits, leastExponent, fractionBits, Nat.shiftLeft_eq]
  rcases Int.lt_trichotomy q 971 with hlt | rfl | hgt
  · have hplace := hdouble hlt
    generalize (2 : ℚ) ^ (971 : ℤ) = unit at *
    exact iff_of_true (by omega) (by linarith)
  · have hbits : ((971 : ℤ) - -1074).toNat * 2 ^ 52 + m < 2047 * 2 ^ 52 ↔ m ≤ 2 ^ 53 - 1 := by omega
    have hhalf : ((2 ^ 53 - 1 : ℕ) : ℚ) + 1 / 2 = 2 ^ 53 - 1 / 2 := by norm_num
    rw [hbits, hnearest.le_iff_of_odd (by decide), div_lt_iff₀ hpos, hhalf]
  · have hplace := hdouble hgt
    have hlow := hlow (by omega)
    have hfull := hfull (by omega)
    generalize (2 : ℚ) ^ (971 : ℤ) = unit at *
    exact iff_of_false (by omega) (by linarith)

theorem nearest_of_ge (hnum : 0 < num) (hden : 0 < den)
    (hge : overflowBound ≤ (num / den : ℚ)) (negative : Bool) :
    nearest negative num den = infinity negative := by
  have hbits := not_lt.mp (mt (bits_lt_iff hnum hden).mp (not_lt.mpr hge))
  simp only [nearest, hnum.ne', if_false, Nat.shiftLeft_eq, Nat.min_eq_right hbits]
  rfl

/-- To a fraction below half the least number zero is nearest. -/
theorem nearest_of_small (hnum : 0 < num) (hden : 0 < den)
    (hsmall : (num / den : ℚ) < 2 ^ (-1075 : ℤ)) (negative : Bool) :
    nearest negative num den = zero negative := by
  obtain ⟨hleast, -, hlow⟩ := lastPlace_bounds hnum hden
  have hnearest := roundedSignificand_isHalfEven num hden (lastPlace num den)
  have hplace : lastPlace num den = -1074 := by
    refine hleast.antisymm' (not_lt.mp fun hmore => ?_)
    have hmono : (2 : ℚ) ^ (-1075 : ℤ) ≤ 2 ^ lastPlace num den :=
      zpow_le_zpow_right₀ one_le_two (by omega)
    have hpos : (0 : ℚ) < 2 ^ lastPlace num den := zpow_pos two_pos _
    linarith only [hlow hmore, hmono, hpos, hsmall]
  have hzero : roundedSignificand num den (lastPlace num den) = 0 := by
    refine hnearest.unique (.of_scaled (zpow_pos two_pos _) ?_)
    have hx : (0 : ℚ) ≤ num / den := by positivity
    have hhalf : (2 : ℚ) ^ (-1075 : ℤ) * 2 = 2 ^ (-1074 : ℤ) :=
      (zpow_add_one₀ two_ne_zero (-1075)).symm
    rw [Nat.cast_zero, zero_mul, zero_sub, abs_neg, abs_of_nonneg hx, hplace]
    linarith only [hsmall, hhalf]
  rw [nearest, if_neg hnum.ne']
  dsimp only
  rw [hzero, hplace]
  rfl

/-- Below the bound the parts are the rounded ones, up to a carry. -/
theorem exists_parts_nearest (hnum : 0 < num) (hden : 0 < den)
    (hlt : (num / den : ℚ) < overflowBound) :
    ∃ m q, IsCanonical m q ∧ (∀ negative, nearest negative num den = ofParts negative m q) ∧
      (m : ℚ) * 2 ^ q =
        roundedSignificand num den (lastPlace num den) * 2 ^ lastPlace num den := by
  obtain ⟨hleast, -, -⟩ := lastPlace_bounds hnum hden
  obtain ⟨hcarry, hfull⟩ := roundedSignificand_bounds hnum hden
  have hbits := (bits_lt_iff hnum hden).mpr hlt
  obtain ⟨m, q, h, hvalue, hparts⟩ := exists_isCanonical hcarry hleast hfull hbits
  refine ⟨m, q, h, fun negative => ?_, hvalue⟩
  simp only [nearest, hnum.ne', if_false, Nat.shiftLeft_eq, Nat.min_eq_left hbits.le]
  exact hparts negative

/-! ## The closest number -/

section Closest

variable (hnum : 0 < num) (hden : 0 < den) (hlt : (num / den : ℚ) < overflowBound)
  (negative : Bool)

include hnum hden hlt

theorem isFinite_nearest : isFinite (nearest negative num den) := by
  obtain ⟨m, q, h, hparts, -⟩ := exists_parts_nearest hnum hden hlt
  rw [hparts]
  exact h.isFinite_ofParts negative

theorem isNegative_nearest : isNegative (nearest negative num den) = negative := by
  obtain ⟨m, q, h, hparts, -⟩ := exists_parts_nearest hnum hden hlt
  rw [hparts]
  exact h.isNegative_ofParts negative

theorem absValue_nearest : absValue (nearest negative num den) =
    roundedSignificand num den (lastPlace num den) * 2 ^ lastPlace num den := by
  obtain ⟨m, q, h, hparts, hvalue⟩ := exists_parts_nearest hnum hden hlt
  rw [hparts, h.absValue_ofParts, hvalue]

/-- The error is at most half a last place. -/
theorem nearest_error :
    2 * |absValue (nearest negative num den) - num / den| ≤ 2 ^ lastPlace num den := by
  have hpos : (0 : ℚ) < 2 ^ lastPlace num den := zpow_pos two_pos _
  have hhalf := (roundedSignificand_isHalfEven num hden (lastPlace num den)).1
  rw [absValue_nearest hnum hden hlt, abs_mul_sub _ _ hpos]
  linarith [mul_le_mul_of_nonneg_right hhalf hpos.le]

/-- The error is small beside the fraction, but the less so the fewer bits there are in front of the
least place. -/
theorem nearest_relative_error_of_bits {k : ℕ} (hk : k ≤ 53)
    (hge : 2 ^ ((k : ℤ) - 1075) ≤ (num / den : ℚ)) :
    2 ^ k * |absValue (nearest negative num den) - num / den| ≤ num / den := by
  have herror := nearest_error hnum hden hlt negative
  have hnonneg := abs_nonneg (absValue (nearest negative num den) - num / den)
  have hscale : (0 : ℚ) < 2 ^ k := by positivity
  obtain ⟨hleast, -, hlow⟩ := lastPlace_bounds hnum hden
  generalize lastPlace num den = q at *
  generalize |absValue (nearest negative num den) - num / den| = err at *
  rcases eq_or_lt_of_le hleast with rfl | hmore
  · have hplace : (2 : ℚ) ^ k * 2 ^ (-1074 : ℤ) = 2 * 2 ^ ((k : ℤ) - 1075) := by
      rw [two_pow_mul_zpow, ← zpow_one_add₀ two_ne_zero]
      congr 1
      omega
    linarith only [mul_le_mul_of_nonneg_left herror hscale.le, hplace, hge]
  · have hpow : (2 : ℚ) ^ k ≤ 2 ^ 53 := pow_le_pow_right₀ one_le_two hk
    linarith only [herror, hlow hmore, mul_le_mul_of_nonneg_right hpow hnonneg, hnonneg]

/-- Down to half the least normal number the error is small beside the fraction. -/
theorem nearest_relative_error (hge : 2 ^ (-1023 : ℤ) ≤ (num / den : ℚ)) :
    2 ^ 52 * |absValue (nearest negative num den) - num / den| ≤ num / den :=
  nearest_relative_error_of_bits hnum hden hlt negative (by decide) hge

/-- No finite number is closer. -/
theorem nearest_closest {x : Float} (hx : isFinite x) :
    |absValue (nearest negative num den) - num / den| ≤ |absValue x - num / den| := by
  have hpos : (0 : ℚ) < 2 ^ lastPlace num den := zpow_pos two_pos _
  obtain ⟨-, -, hlow⟩ := lastPlace_bounds hnum hden
  have hhalf := roundedSignificand_isHalfEven num hden (lastPlace num den)
  have hcanonical := isCanonical hx
  rw [absValue_nearest hnum hden hlt, absValue, abs_mul_sub _ _ hpos]
  generalize lastPlace num den = q at *
  rcases le_or_gt q (exponent x) with hle | hlt
  · -- A multiple of the last place is a natural number of them.
    rw [scaled_value hle, abs_mul_sub _ _ hpos]
    exact mul_le_mul_of_nonneg_right (hhalf.closest _) hpos.le
  · -- With a lower last place it is below the least number of 53 bits, as that is below the fraction.
    have hlow := hlow (hcanonical.least.trans_lt hlt)
    have hm : (significand x : ℚ) ≤ 2 ^ 53 := by exact_mod_cast hcanonical.lt.le
    have hplace : (2 : ℚ) ^ (exponent x + 1) ≤ 2 ^ q := zpow_le_zpow_right₀ one_le_two hlt
    have hbelow : (significand x : ℚ) * 2 ^ exponent x ≤ 2 ^ 52 * 2 ^ q := by
      calc (significand x : ℚ) * 2 ^ exponent x ≤ 2 ^ 53 * 2 ^ exponent x :=
            mul_le_mul_of_nonneg_right hm (zpow_pos two_pos _).le
        _ = 2 ^ 52 * 2 ^ (exponent x + 1) := by
            rw [zpow_add_one₀ two_ne_zero]
            ring
        _ ≤ 2 ^ 52 * 2 ^ q := mul_le_mul_of_nonneg_left hplace (by positivity)
    calc _ ≤ |(num / den : ℚ) / 2 ^ q - (2 ^ 52 : ℕ)| * 2 ^ q :=
          mul_le_mul_of_nonneg_right (hhalf.closest (2 ^ 52)) hpos.le
      _ = |2 ^ 52 * 2 ^ q - (num / den : ℚ)| := by
          rw [← abs_mul_sub _ _ hpos]
          norm_num
      _ = num / den - 2 ^ 52 * 2 ^ q := by rw [abs_sub_comm, abs_of_nonneg (sub_nonneg.mpr hlow)]
      _ ≤ num / den - (significand x : ℚ) * 2 ^ exponent x := sub_le_sub_left hbelow _
      _ ≤ |(significand x : ℚ) * 2 ^ exponent x - num / den| := by
          rw [abs_sub_comm]
          exact le_abs_self _

end Closest

/-! ## Fractions near a number -/

theorem absValue_le {x : Float} (h : isFinite x) : absValue x ≤ (2 ^ 53 - 1) * 2 ^ (971 : ℤ) := by
  have hcanonical := isCanonical h
  have hm : significand x ≤ 2 ^ 53 - 1 := Nat.le_sub_one_of_lt hcanonical.lt
  have hm : (significand x : ℚ) ≤ 2 ^ 53 - 1 := by
    rw [← Nat.cast_le (α := ℚ)] at hm
    norm_num at hm ⊢
    exact hm
  exact mul_le_mul hm (zpow_le_zpow_right₀ one_le_two hcanonical.greatest) (zpow_pos two_pos _).le
    (by norm_num)

theorem absValue_lt_overflowBound {x : Float} (h : isFinite x) : absValue x < overflowBound :=
  (absValue_le h).trans_lt (mul_lt_mul_of_pos_right (by norm_num) (zpow_pos two_pos _))

/-- A fraction within `2 ^ -54` of a number is rounded to that number. -/
theorem nearest_eq_of_near {x : Float} (hx : isFinite x) (hden : 0 < den)
    (hnear : 2 ^ 54 * |(num / den : ℚ) - absValue x| < absValue x) :
    nearest (isNegative x) num den = x := by
  have hpos : 0 < absValue x := (by positivity : (0 : ℚ) ≤ _).trans_lt hnear
  have hnum : 0 < num := by
    have hbelow := neg_abs_le ((num / den : ℚ) - absValue x)
    exact num_pos_of_quotient_pos (by linarith : (0 : ℚ) < num / den)
  have hlt : (num / den : ℚ) < overflowBound := by
    have hgreatest := absValue_le hx
    have hplace : (0 : ℚ) < 2 ^ (971 : ℤ) := zpow_pos two_pos _
    have habove := le_abs_self ((num / den : ℚ) - absValue x)
    rw [overflowBound]
    generalize (2 : ℚ) ^ (971 : ℤ) = unit at *
    linarith
  refine eq_of_near hx (isFinite_nearest hnum hden hlt _) (isNegative_nearest hnum hden hlt _) ?_
  have hclosest := nearest_closest hnum hden hlt (isNegative x) hx
  have htriangle := abs_sub_le (absValue (nearest (isNegative x) num den)) (num / den) (absValue x)
  rw [abs_sub_comm (num / den : ℚ)] at hnear
  rw [abs_sub_comm (num / den : ℚ)] at htriangle
  linarith

end ReversePolish.Binary64
