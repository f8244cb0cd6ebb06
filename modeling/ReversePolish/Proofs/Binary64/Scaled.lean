import ReversePolish.Proofs.Binary64.Bounds
import ReversePolish.Proofs.Binary64.Sum

/-! # Factors in the normal range

Where no bit is lost to the bounds of the format, powers of two move through the rounding, and two
roundings in turn stay close to the exact value. -/

namespace ReversePolish.Binary64

variable {x y : Float} {negative : Bool} {b v : ℚ} {j : ℤ}

/-- The values with all bits of a significand, up to the greatest power of two. -/
structure InRange (v : ℚ) : Prop where
  least : 2 ^ (-1022 : ℤ) ≤ v
  greatest : v ≤ 2 ^ (1023 : ℤ)

theorem InRange.pos (h : InRange v) : 0 < v := (zpow_pos two_pos _).trans_le h.least

theorem InRange.lt_overflowBound (h : InRange v) : v < overflowBound :=
  h.greatest.trans_lt (two_zpow_lt_overflowBound le_rfl)

theorem exists_absValue_eq_two_pow (hleast : -1074 ≤ j) (hgreatest : j ≤ 1023) :
    ∃ y, isFinite y ∧ absValue y = 2 ^ j := by
  obtain ⟨m, q, hm, -, hvalue⟩ := exists_isCanonical_two_pow hleast hgreatest
  exact ⟨ofParts false m q, hm.isFinite_ofParts false, by rw [hm.absValue_ofParts, hvalue]⟩

namespace IsNearest

theorem isFinite_of_inRange (h : IsNearest negative v x) (hv : InRange v) : Binary64.isFinite x :=
  h.isFinite hv.pos hv.lt_overflowBound

/-- The bounds of the range are numbers themselves. -/
theorem inRange (h : IsNearest negative v x) (hv : InRange v) : InRange (absValue x) := by
  have hx := h.isFinite_of_inRange hv
  obtain ⟨low, hlow, hleast⟩ := exists_absValue_eq_two_pow (j := -1022) (by decide) (by decide)
  obtain ⟨high, hhigh, hgreatest⟩ := exists_absValue_eq_two_pow (j := 1023) (by decide) le_rfl
  exact ⟨hleast ▸ h.le_absValue hx hlow (hleast ▸ hv.least),
    hgreatest ▸ h.absValue_le hhigh (hgreatest ▸ hv.greatest)⟩

/-- The place moves with the value. -/
theorem lastPlace_scale {num den num' den' : ℕ} (hnum : 0 < num) (hden : 0 < den)
    (hnum' : 0 < num') (hden' : 0 < den') (hscale : (num' / den' : ℚ) = num / den * 2 ^ j)
    (hv : InRange (num / den)) (hv' : InRange (num' / den')) :
    lastPlace num' den' = lastPlace num den + j := by
  obtain ⟨hleast, hhigh, hlow⟩ := lastPlace_bounds hnum hden
  have hunit : (0 : ℚ) < 2 ^ j := zpow_pos two_pos j
  have hfull : 2 ^ 52 * 2 ^ lastPlace num den ≤ (num / den : ℚ) := by
    rcases hleast.eq_or_lt with hleast | hmore
    · rw [← hleast, two_pow_mul_zpow]
      exact hv.least
    · exact hlow hmore
  have hhigh' : (num' / den' : ℚ) < 2 ^ 53 * 2 ^ (lastPlace num den + j) := by
    rw [hscale, zpow_add₀ two_ne_zero, ← mul_assoc]
    exact mul_lt_mul_of_pos_right hhigh hunit
  refine lastPlace_unique hnum' hden' ?_ hhigh' fun _ => ?_
  · have hlt := hv'.least.trans_lt hhigh'
    rw [two_pow_mul_zpow, zpow_lt_zpow_iff_right₀ one_lt_two] at hlt
    omega
  · rw [hscale, zpow_add₀ two_ne_zero, ← mul_assoc]
    exact mul_le_mul_of_nonneg_right hfull hunit.le

/-- Between normal numbers a power of two changes nothing but the place. -/
theorem absValue_scale (h : IsNearest negative v x) (h' : IsNearest negative (v * 2 ^ j) y)
    (hv : InRange v) (hv' : InRange (v * 2 ^ j)) : absValue y = absValue x * 2 ^ j := by
  obtain ⟨num, den, hden, rfl, rfl⟩ := h
  obtain ⟨num', den', hden', hscale, rfl⟩ := h'
  have hnum := num_pos_of_quotient_pos hv.pos
  rw [hscale] at hv'
  have hnum' := num_pos_of_quotient_pos hv'.pos
  have hplace := lastPlace_scale hnum hden hnum' hden' hscale.symm hv hv'
  have hunits : (num' / den' / 2 ^ (lastPlace num den + j) : ℚ) =
      num / den / 2 ^ lastPlace num den := by
    rw [← hscale, zpow_add₀ two_ne_zero, mul_div_mul_right _ _ (zpow_ne_zero j two_ne_zero)]
  have hrounded : roundedSignificand num' den' (lastPlace num den + j) =
      roundedSignificand num den (lastPlace num den) :=
    (roundedSignificand_isHalfEven num' hden' _).unique
      (hunits ▸ roundedSignificand_isHalfEven num hden _)
  rw [absValue_nearest hnum hden hv.lt_overflowBound,
    absValue_nearest hnum' hden' hv'.lt_overflowBound, hplace, hrounded, zpow_add₀ two_ne_zero,
    mul_assoc]

theorem error_of_inRange (h : IsNearest negative v x) (hv : InRange v) :
    2 ^ 53 * |absValue x - v| ≤ v :=
  h.error hv.pos hv.lt_overflowBound le_rfl hv.least

/-- What is rounded from close to a value is close to it. -/
theorem near (h : IsNearest negative b x) (hv : InRange v) (hb : 2 ^ 53 * |b - v| ≤ v) :
    2 ^ 51 * |absValue x - v| ≤ v := by
  obtain ⟨hbelow, habove⟩ := abs_le.mp (show |b - v| ≤ v / 2 ^ 53 by linarith)
  have hpos := hv.pos
  have hge : (2 : ℚ) ^ (((52 : ℕ) : ℤ) - 1075) ≤ b := by
    calc (2 : ℚ) ^ (((52 : ℕ) : ℤ) - 1075) = 2 ^ (-1022 : ℤ) / 2 := by
          rw [div_eq_mul_inv, ← zpow_sub_one₀ two_ne_zero]
          norm_num
      _ ≤ v / 2 := div_le_div_of_nonneg_right hv.least two_pos.le
      _ ≤ b := by linarith
  have hlt : b < overflowBound := by
    have hjoin : (2 : ℚ) ^ (1023 : ℤ) = 2 ^ 52 * 2 ^ (971 : ℤ) := by
      rw [two_pow_mul_zpow]
      norm_num
    have hunit : (0 : ℚ) < 2 ^ (971 : ℤ) := zpow_pos two_pos _
    have hgreatest := hv.greatest
    rw [hjoin] at hgreatest
    rw [overflowBound]
    generalize (2 : ℚ) ^ (971 : ℤ) = unit at hunit hgreatest ⊢
    linarith
  have herror := h.error (by linarith) hlt (k := 52) (by decide) hge
  obtain ⟨hbelow', habove'⟩ := abs_le.mp (show |absValue x - b| ≤ b / 2 ^ 52 by linarith)
  rw [← le_div_iff₀' (by norm_num), abs_le]
  constructor <;> linarith

end IsNearest

end ReversePolish.Binary64
