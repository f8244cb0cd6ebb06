import ReversePolish.Binary64.Integral
import ReversePolish.Proofs.Binary64.Finite
import ReversePolish.Proofs.Binary64.Nearest

/-! # Square roots of normal numbers

The root of a normal number is normal, and off by less than its last place. -/

namespace ReversePolish.Binary64

section Parts

open Float.Model Float.Model.UnpackedFloat

/-! ## Rounding to 53 bits -/

theorem targetExponent_binary64 (n : ℤ) :
    Format.binary64.targetExponent n = max (n - 53) (-1074) := rfl

theorem shiftToTargetExponent_of_log2 {m : ℕ} {e : ℤ} (hm : m.log2 = 52) (he : -1074 ≤ e)
    (acc : Accuracy) : shiftToTargetExponent Format.binary64 m e acc =
      (ExtendedMantissa.ofMantissaAndAccuracy m acc, e) := by
  have htarget : max ((52 : ℕ) + 1 + e - 53) (-1074) = e := by omega
  simp only [shiftToTargetExponent, totalExponent, targetExponent_binary64, hm, htarget,
    shiftToExponent, sub_self, Int.toNat_zero, Int.natCast_zero, add_zero]
  rfl

/-- One bit more than the format has goes to the exponent. -/
theorem shiftToTargetExponent_two_pow {e : ℤ} (he : -1074 ≤ e) :
    shiftToTargetExponent Format.binary64 (2 ^ 53) e .exact = (⟨2 ^ 52, false, false⟩, e + 1) := by
  have hlog : Nat.log2 (2 ^ 53) = 53 := by decide
  have htarget : max ((53 : ℕ) + 1 + e - 53) (-1074) = e + 1 := by omega
  simp only [shiftToTargetExponent, totalExponent, targetExponent_binary64, hlog, htarget,
    shiftToExponent, add_sub_cancel_left, Int.toNat_one, Int.natCast_one]
  rfl

theorem roundedMantissa_bounds (m : ℕ) (acc : Accuracy) :
    m ≤ (ExtendedMantissa.ofMantissaAndAccuracy m acc).roundedMantissa ∧
      (ExtendedMantissa.ofMantissaAndAccuracy m acc).roundedMantissa ≤ m + 1 := by
  rcases acc with _ | _ | _ | _
  · exact ⟨le_rfl, Nat.le_succ m⟩
  · exact ⟨le_rfl, Nat.le_succ m⟩
  · simp [ExtendedMantissa.roundedMantissa, ExtendedMantissa.ofMantissaAndAccuracy,
      ExtendedMantissa.accuracy, Accuracy.roundToNearestEven]
    omega
  · exact ⟨Nat.le_succ m, le_rfl⟩

theorem roundWithAccuracy_eq {m r : ℕ} {e e₁ e₂ : ℤ} {acc : Accuracy} {em₁ em₂ : ExtendedMantissa}
    (h₁ : shiftToTargetExponent Format.binary64 m e acc = (em₁, e₁))
    (hr : em₁.roundedMantissa = r)
    (h₂ : shiftToTargetExponent Format.binary64 r e₁ .exact = (em₂, e₂)) (hpos : 0 < em₂.mantissa) :
    roundWithAccuracy Format.binary64 .positive m e acc =
      .finite .positive em₂.mantissa e₂ hpos := by
  simp only [roundWithAccuracy, h₁, hr, h₂]
  exact dif_neg hpos.ne'

theorem roundWithAccuracy_normal {m : ℕ} {e : ℤ} (h : IsNormal m e) (hgreatest : e ≤ 970)
    (acc : Accuracy) :
    ∃ m' e', ∃ h' : IsNormal m' e',
      roundWithAccuracy Format.binary64 .positive m e acc = h'.unpacked ∧ e ≤ e' ∧
        (m : ℚ) * 2 ^ e ≤ m' * 2 ^ e' ∧ (m' : ℚ) * 2 ^ e' ≤ (m + 1) * 2 ^ e := by
  have hle := h.le
  have hlt := h.lt
  have hplace : (0 : ℚ) ≤ 2 ^ e := (zpow_pos two_pos e).le
  obtain ⟨hlow, hhigh⟩ := roundedMantissa_bounds m acc
  have hshift := shiftToTargetExponent_of_log2 h.log2_eq h.least acc
  generalize hem : ExtendedMantissa.ofMantissaAndAccuracy m acc = em at hlow hhigh hshift
  obtain ⟨r, hr⟩ : ∃ r, em.roundedMantissa = r := ⟨_, rfl⟩
  rw [hr] at hlow hhigh
  have hlow' : (m : ℚ) * 2 ^ e ≤ r * 2 ^ e :=
    mul_le_mul_of_nonneg_right (by exact_mod_cast hlow) hplace
  have hhigh' : (r : ℚ) * 2 ^ e ≤ (m + 1) * 2 ^ e :=
    mul_le_mul_of_nonneg_right (by exact_mod_cast hhigh) hplace
  rcases Nat.lt_or_eq_of_le (show r ≤ 2 ^ 53 by omega) with hfits | rfl
  · have h' : IsNormal r e := ⟨by omega, hfits, h.least, h.greatest⟩
    refine ⟨r, e, h', ?_, le_rfl, hlow', hhigh'⟩
    exact roundWithAccuracy_eq hshift hr (shiftToTargetExponent_of_log2 h'.log2_eq h.least .exact)
      h'.pos
  · have h' : IsNormal (2 ^ 52) (e + 1) := ⟨le_rfl, by decide, by have := h.least; omega, by omega⟩
    have hcarry : ((2 ^ 52 : ℕ) : ℚ) * 2 ^ (e + 1) = (2 ^ 53 : ℕ) * 2 ^ e := by
      rw [zpow_add_one₀ two_ne_zero]
      push_cast
      ring
    refine ⟨2 ^ 52, e + 1, h', ?_, by omega, hcarry ▸ hlow', hcarry ▸ hhigh'⟩
    exact roundWithAccuracy_eq hshift hr (shiftToTargetExponent_two_pow h.least) h'.pos

/-! ## Roots -/

theorem sqrtCore_eq {m k : ℕ} {e t : ℤ}
    (ht : min (e / 2) (Format.binary64.targetExponent ((totalExponent m e + 1) / 2)) = t)
    (hk : (e - 2 * t).toNat = k) :
    ∃ acc, sqrtCore Format.binary64 m e = ((m * 2 ^ k).sqrt, t, acc) := by
  subst ht hk
  rw [← Nat.shiftLeft_eq]
  exact ⟨_, rfl⟩

/-- The integer root that the significand is rounded from, with its exponent: the radicand is
shifted to at least 105 bits so that its exponent is even. -/
theorem sqrtCore_normal {m : ℕ} {e : ℤ} (h : IsNormal m e) :
    ∃ (root k : ℕ) (t : ℤ), (∃ acc, sqrtCore Format.binary64 m e = (root, t, acc)) ∧
      IsNormal root t ∧ t ≤ 970 ∧ (k : ℤ) + 2 * t = e ∧
      root * root ≤ m * 2 ^ k ∧ m * 2 ^ k < (root + 1) * (root + 1) := by
  have hle := h.le
  have hlt := h.lt
  have hleast := h.least
  have hgreatest := h.greatest
  have htarget : min (e / 2) (Format.binary64.targetExponent ((totalExponent m e + 1) / 2)) =
      e / 2 - 26 := by
    rw [targetExponent_binary64, totalExponent, h.log2_eq]
    omega
  obtain ⟨k, hk⟩ := Int.eq_ofNat_of_zero_le (show 0 ≤ e - 2 * (e / 2 - 26) by omega)
  have hcases : k = 52 ∨ k = 53 := by omega
  have hlow : 2 ^ 52 * 2 ^ 52 ≤ m * 2 ^ k := by
    rcases hcases with rfl | rfl <;> omega
  have hhigh : m * 2 ^ k < 2 ^ 53 * 2 ^ 53 := by
    rcases hcases with rfl | rfl <;> omega
  exact ⟨(m * 2 ^ k).sqrt, k, e / 2 - 26, sqrtCore_eq htarget (by omega),
    ⟨Nat.le_sqrt.mpr hlow, Nat.sqrt_lt.mpr hhigh, by omega, by omega⟩, by omega, by omega,
    Nat.sqrt_le _, Nat.lt_succ_sqrt _⟩

/-- The exact root lies within a last place of the rounded one. -/
theorem sqrt_normal {m : ℕ} {e : ℤ} (h : IsNormal m e) :
    ∃ m' e', ∃ h' : IsNormal m' e', h.toFloat.sqrt = h'.toFloat ∧
      (((m' : ℚ) - 1) * 2 ^ e') ^ 2 ≤ m * 2 ^ e ∧ (m : ℚ) * 2 ^ e < ((m' + 1) * 2 ^ e') ^ 2 := by
  obtain ⟨root, k, t, ⟨acc, hcore⟩, hroot, ht, hk, hlow, hhigh⟩ := sqrtCore_normal h
  obtain ⟨m', e', h', hround, he, hbelow, habove⟩ := roundWithAccuracy_normal hroot ht acc
  have hvalue : (m : ℚ) * 2 ^ e = (m * 2 ^ k : ℕ) * (2 ^ t) ^ 2 := by
    rw [← hk, zpow_add₀ two_ne_zero, zpow_natCast, two_mul, zpow_add₀ two_ne_zero]
    push_cast
    ring
  have hplace : (2 : ℚ) ^ t ≤ 2 ^ e' := zpow_le_zpow_right₀ one_le_two he
  have hone : (1 : ℚ) ≤ m' := by exact_mod_cast h'.pos
  refine ⟨m', e', h', ?_, ?_, ?_⟩
  · have hparts : UnpackedFloat.sqrt Format.binary64 h.unpacked = h'.unpacked := by
      simp only [UnpackedFloat.sqrt, IsNormal.unpacked, hcore]
      exact hround
    simp only [Float.sqrt, Float.Model.sqrt, IsNormal.toFloat]
    rw [show (Float.Model.pack h.unpacked).unpack = h.unpacked from unpack_toFloat h, hparts]
  · calc (((m' : ℚ) - 1) * 2 ^ e') ^ 2 ≤ ((root : ℚ) * 2 ^ t) ^ 2 := by
          refine pow_le_pow_left₀ (mul_nonneg (sub_nonneg.mpr hone) (zpow_pos two_pos e').le) ?_ 2
          linarith
      _ = (root * root : ℕ) * ((2 : ℚ) ^ t) ^ 2 := by push_cast; ring
      _ ≤ (m * 2 ^ k : ℕ) * ((2 : ℚ) ^ t) ^ 2 :=
          mul_le_mul_of_nonneg_right (by exact_mod_cast hlow) (sq_nonneg _)
      _ = m * 2 ^ e := hvalue.symm
  · calc (m : ℚ) * 2 ^ e = (m * 2 ^ k : ℕ) * (2 ^ t) ^ 2 := hvalue
      _ < ((root + 1) * (root + 1) : ℕ) * (2 ^ t) ^ 2 :=
          mul_lt_mul_of_pos_right (by exact_mod_cast hhigh) (pow_pos (zpow_pos two_pos t) 2)
      _ = (((root : ℚ) + 1) * 2 ^ t) ^ 2 := by push_cast; ring
      _ ≤ (((m' : ℚ) + 1) * 2 ^ e') ^ 2 := by
          refine pow_le_pow_left₀ (by positivity) ?_ 2
          linarith

end Parts

/-! ## Whole parts -/

theorem toInt64_normal {m k : ℕ} (h : IsNormal m (-(k : ℤ))) :
    (toInt64 h.toFloat).toInt = (m / 2 ^ k : ℕ) := by
  have hparts := h.isCanonical
  have hnumber : h.toFloat.isNaN = false := by
    rw [h.toFloat_eq]
    exact isNaN_of_isFinite (hparts.isFinite_ofParts false)
  have hlt : m / 2 ^ k < 2 ^ 53 := (Nat.div_le_self _ _).trans_lt h.lt
  have hwhole : toInt .towardZero h.toFloat = (m / 2 ^ k : ℕ) := by
    simp only [toInt, signedNumerator, numerator, denominator, Rounding.quotient]
    rw [h.toFloat_eq, hparts.isNegative_ofParts, hparts.significand_ofParts,
      hparts.exponent_ofParts, neg_neg, Int.toNat_natCast, Int.toNat_neg_natCast, Nat.one_shiftLeft]
    simp
  generalize m / 2 ^ k = whole at hlt hwhole ⊢
  rw [toInt64, hnumber, if_neg Bool.false_ne_true, hwhole]
  apply Int64.toInt_ofIntClamp
  · rw [Int64.toInt_minValue]
    omega
  · rw [Int64.toInt_maxValue]
    omega

/-- The last place of a root below `2 ^ 32` is small. -/
theorem place_of_sq_le {m : ℕ} {e : ℤ} (h : IsNormal m e)
    (hsq : (((m : ℚ) - 1) * 2 ^ e) ^ 2 ≤ 2 ^ 64) : (2 : ℚ) ^ e ≤ 1 / 4 := by
  have hpos : (0 : ℚ) < 2 ^ e := zpow_pos two_pos e
  have hm : (2 : ℚ) ^ 52 ≤ m := by exact_mod_cast h.le
  have hroot : ((m : ℚ) - 1) * 2 ^ e ≤ 2 ^ 32 := by
    refine le_of_sq_le_sq ?_ (by positivity)
    calc (((m : ℚ) - 1) * 2 ^ e) ^ 2 ≤ 2 ^ 64 := hsq
      _ = (2 ^ 32) ^ 2 := by norm_num
  have hmul : ((2 : ℚ) ^ 52 - 1) * 2 ^ e ≤ (m - 1) * 2 ^ e :=
    mul_le_mul_of_nonneg_right (by linarith) hpos.le
  linarith

/-- How far the root of a rounded square is off in its own places. -/
theorem sqrt_ofInt_bounds {r : ℕ} (hr : 2 ≤ r) (hlt : r * r < 2 ^ 63) :
    ∃ m e, ∃ h : IsNormal m e, (ofInt (r * r : ℕ)).sqrt = h.toFloat ∧ (2 : ℚ) ^ e ≤ 1 / 4 ∧
      ((m : ℚ) - 1) * 2 ^ e < r + 1 ∧ (r : ℚ) - 1 / 2 < (m + 1) * 2 ^ e := by
  obtain ⟨x, q, hx, hsquare, hnear⟩ := ofInt_normal (show 0 < r * r by positivity)
    (show r * r < 2 ^ limbBits by rw [limbBits]; omega)
  obtain ⟨m, e, h, hsqrt, hlow, hhigh⟩ := sqrt_normal hx
  have hr' : (2 : ℚ) ≤ r := by exact_mod_cast hr
  have hlt' : (r : ℚ) * r < 2 ^ 63 := by exact_mod_cast hlt
  have hshort : (r : ℚ) < 2 ^ 32 := by nlinarith
  have hradicand : |(x : ℚ) * 2 ^ q - r * r| ≤ r / 2 := by
    push_cast at hnear
    nlinarith
  obtain ⟨hbelow, habove⟩ := abs_le.mp hradicand
  refine ⟨m, e, h, by rw [hsquare, hsqrt], place_of_sq_le h (by linarith), ?_, ?_⟩
  · refine lt_of_pow_lt_pow_left₀ 2 (by positivity) ?_
    linarith [add_sq (r : ℚ) 1]
  · refine lt_of_pow_lt_pow_left₀ 2 (by positivity) ?_
    linarith [sub_sq (r : ℚ) (1 / 2)]

/-- The root that the reals have for the square of an integer lies within one of it. -/
theorem sqrt_ofInt_near {r : ℕ} (hr : 2 ≤ r) (hlt : r * r < 2 ^ 63) :
    ∃ (m k : ℕ) (h : IsNormal m (-(k : ℤ))), (ofInt (r * r : ℕ)).sqrt = h.toFloat ∧
      (r - 1) * 2 ^ k ≤ m ∧ m < (r + 2) * 2 ^ k := by
  obtain ⟨m, e, h, hsqrt, hplace, hupper, hlower⟩ := sqrt_ofInt_bounds hr hlt
  obtain ⟨k, rfl⟩ : ∃ k : ℕ, e = -(k : ℤ) := by
    refine Int.exists_eq_neg_ofNat (not_lt.mp fun he => ?_)
    have hwhole : (1 : ℚ) ≤ 2 ^ e := one_le_zpow₀ one_le_two he.le
    linarith
  have hone : (2 : ℚ) ^ (-(k : ℤ)) * 2 ^ k = 1 := by
    rw [zpow_neg, zpow_natCast, inv_mul_cancel₀ (pow_ne_zero k two_ne_zero)]
  have hpos : (0 : ℚ) < 2 ^ k := pow_pos two_pos k
  have hplace := mul_le_mul_of_nonneg_right hplace hpos.le
  have hupper := mul_lt_mul_of_pos_right hupper hpos
  have hlower := mul_lt_mul_of_pos_right hlower hpos
  rw [hone] at hplace
  rw [mul_assoc, hone] at hupper hlower
  have hupper : (m : ℚ) < (r + 2) * 2 ^ k := by linarith
  have hlower : ((r - 1 : ℕ) : ℚ) * 2 ^ k ≤ m := by
    rw [Nat.cast_pred (by omega)]
    linarith
  exact ⟨m, k, h, hsqrt, by exact_mod_cast hlower, by exact_mod_cast hupper⟩

/-- The whole part of the root is the exact root or next to it. -/
theorem toInt64_sqrt_near {r : ℕ} (hr : 2 ≤ r) (hlt : r * r < 2 ^ 63) :
    (r : ℤ) - 1 ≤ (toInt64 (ofInt (r * r : ℕ)).sqrt).toInt ∧
      (toInt64 (ofInt (r * r : ℕ)).sqrt).toInt ≤ r + 1 := by
  obtain ⟨m, k, h, hsqrt, hlow, hhigh⟩ := sqrt_ofInt_near hr hlt
  have hlow : r - 1 ≤ m / 2 ^ k := (Nat.le_div_iff_mul_le (Nat.two_pow_pos k)).mpr hlow
  have hhigh : m / 2 ^ k < r + 2 := (Nat.div_lt_iff_lt_mul (Nat.two_pow_pos k)).mpr hhigh
  rw [hsqrt, toInt64_normal]
  omega

end ReversePolish.Binary64
