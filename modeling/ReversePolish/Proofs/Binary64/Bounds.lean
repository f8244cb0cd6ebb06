import ReversePolish.Proofs.Binary64.Reciprocal

/-! # Bounds of rounded numbers

Rounding to the nearest number passes no other number, at most doubles a value, and loses it
altogether only at half the least number or below. -/

namespace ReversePolish.Binary64

variable {x y : Float}

theorem absValue_nonneg (x : Float) : 0 ≤ absValue x :=
  mul_nonneg (Nat.cast_nonneg _) (zpow_pos two_pos _).le

theorem magnitudeBits_eq_zero_iff : magnitudeBits x = 0 ↔ absValue x = 0 :=
  ⟨absValue_of_eq_zero, not_imp_not.mp fun h => (absValue_pos_of_ne_zero h).ne'⟩

theorem isFinite_of_eq_zero (h : magnitudeBits x = 0) : isFinite x := by
  rw [isFinite, h]
  decide

theorem magnitude_le_iff (hx : isFinite x) (hy : isFinite y) :
    magnitude x ≤ magnitude y ↔ absValue x ≤ absValue y := by
  rw [magnitude_of_isFinite hx, magnitude_of_isFinite hy]
  exact_mod_cast Iff.rfl

theorem magnitudeBits_zero (negative : Bool) : magnitudeBits (zero negative) = 0 :=
  magnitudeBits_ofMagnitudeBits (Nat.zero_le _)

theorem absValue_zero (negative : Bool) : absValue (zero negative) = 0 :=
  absValue_of_eq_zero (magnitudeBits_zero negative)

theorem two_zpow_lt_overflowBound {j : ℤ} (hj : j ≤ 1023) : (2 : ℚ) ^ j < overflowBound := by
  calc (2 : ℚ) ^ j ≤ 2 ^ (1023 : ℤ) := zpow_le_zpow_right₀ one_le_two hj
    _ = 2 ^ 52 * 2 ^ (971 : ℤ) := by
        rw [two_pow_mul_zpow]
        norm_num
    _ < overflowBound := mul_lt_mul_of_pos_right (by norm_num) (zpow_pos two_pos _)

/-- The least number above zero. -/
def least : Float := ofParts false 1 leastExponent

theorem isCanonical_least : IsCanonical 1 leastExponent := ⟨by decide, by decide, by decide, by decide⟩

theorem isFinite_least : isFinite least := isCanonical_least.isFinite_ofParts false

theorem absValue_least : absValue least = 2 * 2 ^ (-1075 : ℤ) := by
  rw [least, isCanonical_least.absValue_ofParts, leastExponent, Nat.cast_one, one_mul,
    ← zpow_one_add₀ two_ne_zero]
  norm_num

namespace IsNearest

variable {negative : Bool} {v : ℚ} (h : IsNearest negative v x)

include h

theorem nonneg : 0 ≤ v := by
  obtain ⟨num, den, -, rfl, -⟩ := h
  positivity

theorem isFinite_iff : Binary64.isFinite x ↔ v < overflowBound := by
  obtain ⟨num, den, hden, rfl, rfl⟩ := h
  exact isFinite_nearest_iff negative hden

theorem le_absValue (hx : Binary64.isFinite x) (hy : Binary64.isFinite y) (hle : absValue y ≤ v) :
    absValue y ≤ absValue x := by
  rw [← magnitude_le_iff hy hx]
  obtain ⟨num, den, hden, rfl, rfl⟩ := h
  exact le_magnitude_nearest negative hden hy hle

theorem absValue_le (hy : Binary64.isFinite y) (hle : v ≤ absValue y) :
    absValue x ≤ absValue y := by
  have hx : Binary64.isFinite x := h.isFinite_iff.mpr (hle.trans_lt (absValue_lt_overflowBound hy))
  rw [← magnitude_le_iff hx hy]
  obtain ⟨num, den, hden, rfl, rfl⟩ := h
  exact magnitude_nearest_le negative hden hy hle

/-- No finite number is closer. -/
theorem closest (hx : Binary64.isFinite x) (hy : Binary64.isFinite y) :
    |absValue x - v| ≤ |absValue y - v| := by
  rcases h.nonneg.eq_or_lt with rfl | hv
  · rw [h.unique (isNearest_zero negative), absValue_zero, sub_self, abs_zero]
    exact abs_nonneg _
  · have hlt := h.isFinite_iff.mp hx
    obtain ⟨num, den, hden, rfl, rfl⟩ := h
    exact nearest_closest (num_pos_of_quotient_pos hv) hden hlt negative hy

theorem absValue_le_two_mul (hx : Binary64.isFinite x) : absValue x ≤ 2 * v := by
  have hclosest := h.closest hx (isFinite_zero false)
  rw [absValue_zero, zero_sub, abs_neg, abs_of_nonneg h.nonneg] at hclosest
  linarith [(abs_le.mp hclosest).2]

/-- Of half the least number or less nothing is left, as zero is even. -/
theorem magnitudeBits_eq_zero (hv : v ≤ 2 ^ (-1075 : ℤ)) : magnitudeBits x = 0 := by
  rcases h.nonneg.eq_or_lt with rfl | hpos
  · rw [h.unique (isNearest_zero negative), magnitudeBits_zero]
  have hunit : (0 : ℚ) < 2 ^ (-1075 : ℤ) := zpow_pos two_pos _
  have hplace : (2 : ℚ) ^ (-1074 : ℤ) = 2 * 2 ^ (-1075 : ℤ) := zpow_one_add₀ two_ne_zero (-1075)
  have hlt : v < overflowBound := by
    have hleast := absValue_lt_overflowBound isFinite_least
    rw [absValue_least] at hleast
    linarith
  obtain ⟨num, den, hden, rfl, rfl⟩ := h
  have hnum := num_pos_of_quotient_pos hpos
  have hlast : lastPlace num den = -1074 := by
    refine lastPlace_unique hnum hden le_rfl ?_ fun hmore => absurd hmore (lt_irrefl _)
    rw [hplace]
    linarith
  have hhalf : |(num / den : ℚ) / 2 ^ (-1074 : ℤ) - (0 : ℕ)| ≤ 1 / 2 := by
    rw [Nat.cast_zero, sub_zero, abs_of_nonneg (by positivity), hplace, div_le_iff₀ (by positivity)]
    linarith
  have hrounded : roundedSignificand num den (-1074) = 0 :=
    (roundedSignificand_isHalfEven num hden _).unique ⟨hhalf, fun _ => Even.zero⟩
  rw [Binary64.magnitudeBits_eq_zero_iff, absValue_nearest hnum hden hlt, hlast, hrounded,
    Nat.cast_zero, zero_mul]

theorem magnitudeBits_eq_zero_iff : magnitudeBits x = 0 ↔ v ≤ 2 ^ (-1075 : ℤ) := by
  refine ⟨fun hzero => ?_, h.magnitudeBits_eq_zero⟩
  have hclosest := h.closest (isFinite_of_eq_zero hzero) isFinite_least
  rw [absValue_of_eq_zero hzero, absValue_least, zero_sub, abs_neg, abs_of_nonneg h.nonneg]
    at hclosest
  have hunit : (0 : ℚ) < 2 ^ (-1075 : ℤ) := zpow_pos two_pos _
  rcases le_abs.mp hclosest with hle | hle
  · linarith
  · linarith

end IsNearest

end ReversePolish.Binary64
