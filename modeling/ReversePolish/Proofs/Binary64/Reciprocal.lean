import ReversePolish.Proofs.Binary64.Integer
import ReversePolish.Proofs.Binary64.Product

/-! # Multiplication by a reciprocal

To multiply by the reciprocal of a number is not to divide by it, as the reciprocal is rounded by
itself. It comes to the same where the reciprocal is exact, and close to it elsewhere. -/

namespace ReversePolish.Binary64

open Float.Model Float.Model.UnpackedFloat

variable {x y : Float} {negative : Bool} {v : ℚ}

/-! ## Nearest numbers -/

namespace IsNearest

theorem lt_overflowBound (h : IsNearest negative v x) (hv : 0 < v)
    (hx : magnitudeBits x ≠ infinityBits) : v < overflowBound := by
  obtain ⟨num, den, hden, rfl, rfl⟩ := h
  by_contra hge
  rw [nearest_of_ge (num_pos_of_quotient_pos hv) hden (not_lt.mp hge)] at hx
  exact hx (magnitudeBits_ofMagnitudeBits le_rfl)

theorem isFinite (h : IsNearest negative v x) (hv : 0 < v) (hlt : v < overflowBound) :
    isFinite x := by
  obtain ⟨num, den, hden, rfl, rfl⟩ := h
  exact isFinite_nearest (num_pos_of_quotient_pos hv) hden hlt negative

theorem isNegative (h : IsNearest negative v x) : isNegative x = negative := by
  obtain ⟨num, den, -, -, rfl⟩ := h
  exact isNegative_of_nearest negative num den

theorem not_isNaN (h : IsNearest negative v x) : ¬ x.isNaN := by
  obtain ⟨num, den, -, -, rfl⟩ := h
  exact not_isNaN_nearest negative num den

theorem error (h : IsNearest negative v x) (hv : 0 < v) (hlt : v < overflowBound) {k : ℕ}
    (hk : k ≤ 53) (hge : 2 ^ ((k : ℤ) - 1075) ≤ v) : 2 ^ k * |absValue x - v| ≤ v := by
  obtain ⟨num, den, hden, rfl, rfl⟩ := h
  exact nearest_relative_error_of_bits (num_pos_of_quotient_pos hv) hden hlt negative hk hge

/-- The value of a finite number is not rounded. -/
theorem absValue_eq {m : ℕ} {q : ℤ} (hm : IsCanonical m q) (hpos : 0 < m)
    (h : IsNearest negative (m * 2 ^ q) x) : absValue x = m * 2 ^ q := by
  have hvalue := hm.absValue_ofParts negative
  have hfinite := hm.isFinite_ofParts negative
  have hv : (0 : ℚ) < m * 2 ^ q := mul_pos (by exact_mod_cast hpos) (zpow_pos two_pos q)
  have hlt : (m * 2 ^ q : ℚ) < overflowBound := hvalue ▸ absValue_lt_overflowBound hfinite
  obtain ⟨num, den, hden, hquotient, rfl⟩ := h
  rw [hquotient] at hv hlt hvalue ⊢
  have hclosest := nearest_closest (num_pos_of_quotient_pos hv) hden hlt negative hfinite
  rw [hvalue, sub_self, abs_zero] at hclosest
  exact sub_eq_zero.mp (abs_nonpos_iff.mp hclosest)

end IsNearest

theorem overflowBound_lt : overflowBound < 2 ^ (1024 : ℤ) := by
  have hjoin : (2 : ℚ) ^ (1024 : ℤ) = 2 ^ 53 * 2 ^ (971 : ℤ) := by
    rw [two_pow_mul_zpow]
    norm_num
  rw [overflowBound, hjoin]
  exact mul_lt_mul_of_pos_right (by norm_num) (zpow_pos two_pos _)

/-- Every power of two in the range is a finite number. -/
theorem exists_isCanonical_two_pow {j : ℤ} (hleast : -1074 ≤ j) (hgreatest : j ≤ 1023) :
    ∃ m q, IsCanonical m q ∧ 0 < m ∧ (2 : ℚ) ^ j = m * 2 ^ q := by
  have hjoin (k : ℕ) (q : ℤ) : ((2 ^ k : ℕ) : ℚ) * 2 ^ q = 2 ^ (k + q) := by
    rw [Nat.cast_pow, Nat.cast_ofNat, two_pow_mul_zpow]
  by_cases hnormal : -1022 ≤ j
  · refine ⟨2 ^ 52, j - 52, ⟨by decide, by omega, by omega, fun _ => le_rfl⟩, by decide, ?_⟩
    rw [hjoin]
    congr 1
    omega
  · obtain ⟨k, hk⟩ := Int.le.dest hleast
    have hlt : 2 ^ k < 2 ^ 53 := Nat.pow_lt_pow_right one_lt_two (by omega)
    refine ⟨2 ^ k, -1074, ⟨hlt, le_rfl, by omega, by omega⟩, Nat.two_pow_pos k, ?_⟩
    rw [hjoin, ← hk, add_comm]

/-! ## Finite divisors -/

theorem absValue_pos_of_ne_zero (h : magnitudeBits x ≠ 0) : 0 < absValue x := by
  refine absValue_pos fun hzero => h ?_
  rw [significand_eq] at hzero
  split at hzero
  · exact hzero
  · omega

theorem isFinite_one : isFinite 1 := by decide +kernel

theorem isNegative_one : isNegative 1 = false := by decide +kernel

theorem absValue_one : absValue 1 = 1 := by
  have hsignificand : significand 1 = 2 ^ 52 := by decide +kernel
  have hexponent : exponent 1 = -52 := by decide +kernel
  rw [absValue, hsignificand, hexponent]
  norm_num

section Finite

variable (hy : isFinite y) (hne : magnitudeBits y ≠ 0)

include hy hne

theorem isNearest_reciprocal : IsNearest (isNegative y) (1 / absValue y) (1 / y) := by
  have hquotient := isNearest_div isFinite_one hy hne
  rwa [absValue_one, isNegative_one, Bool.false_bne] at hquotient

variable (hfinite : magnitudeBits (1 / y) ≠ infinityBits)

include hfinite

theorem reciprocal_lt_overflowBound : 1 / absValue y < overflowBound :=
  (isNearest_reciprocal hy hne).lt_overflowBound
    (one_div_pos.mpr (absValue_pos_of_ne_zero hne)) hfinite

theorem isFinite_reciprocal : isFinite (1 / y) :=
  (isNearest_reciprocal hy hne).isFinite (one_div_pos.mpr (absValue_pos_of_ne_zero hne))
    (reciprocal_lt_overflowBound hy hne hfinite)

/-- The reciprocals of the largest numbers have two bits less than normal ones. -/
theorem reciprocal_error :
    2 ^ 51 * |absValue (1 / y) - 1 / absValue y| ≤ 1 / absValue y := by
  have hpos := absValue_pos_of_ne_zero hne
  refine (isNearest_reciprocal hy hne).error (one_div_pos.mpr hpos)
    (reciprocal_lt_overflowBound hy hne hfinite) (by decide) ?_
  calc (2 : ℚ) ^ (((51 : ℕ) : ℤ) - 1075) = 1 / 2 ^ (1024 : ℤ) := by
        rw [one_div, ← zpow_neg]
        norm_num
    _ ≤ 1 / absValue y := one_div_le_one_div_of_le hpos
        ((absValue_lt_overflowBound hy).trans overflowBound_lt).le

theorem reciprocal_pos : 0 < absValue (1 / y) := by
  have herror := reciprocal_error hy hne hfinite
  have hpos : 0 < 1 / absValue y := one_div_pos.mpr (absValue_pos_of_ne_zero hne)
  have hbelow := neg_abs_le (absValue (1 / y) - 1 / absValue y)
  linarith

/-- The reciprocal of a power of two is exact. -/
theorem reciprocal_of_two_pow {j : ℤ} (hj : absValue y = 2 ^ j) :
    absValue (1 / y) = 1 / absValue y := by
  have hnearest := isNearest_reciprocal hy hne
  have hlt := (reciprocal_lt_overflowBound hy hne hfinite).trans overflowBound_lt
  have hlt' := (absValue_lt_overflowBound hy).trans overflowBound_lt
  rw [hj] at hnearest hlt hlt' ⊢
  rw [one_div, ← zpow_neg] at hnearest hlt ⊢
  have hbelow := (zpow_lt_zpow_iff_right₀ one_lt_two).mp hlt
  have hbelow' := (zpow_lt_zpow_iff_right₀ one_lt_two).mp hlt'
  have hleast : -1074 ≤ -j := by omega
  obtain ⟨m, q, hm, hpos, hvalue⟩ := exists_isCanonical_two_pow hleast (by omega)
  rw [hvalue] at hnearest ⊢
  exact hnearest.absValue_eq hm hpos

end Finite

/-! ## Infinities and NaN -/

theorem div_of_isNaN (h : x.isNaN ∨ y.isNaN) : x / y = .ofModel (.pack .notANumber) := by
  rw [div_eq]
  rcases h with h | h
  · rw [(unpacks x).eq_nan h]
    rfl
  · rw [(unpacks y).eq_nan h]
    cases x.toModel.unpack <;> rfl

theorem mul_of_isNaN (h : x.isNaN ∨ y.isNaN) : x * y = .ofModel (.pack .notANumber) := by
  rw [mul_eq]
  rcases h with h | h
  · rw [(unpacks x).eq_nan h]
    rfl
  · rw [(unpacks y).eq_nan h]
    cases x.toModel.unpack <;> rfl

/-- A zero as a factor is like an infinity of its sign as a divisor. -/
theorem mul_zero_eq_div_infinity {z : Float} (hz : magnitudeBits z = 0)
    (hy : magnitudeBits y = infinityBits) (hsign : isNegative z = isNegative y) (x : Float) :
    x * z = x / y := by
  rw [mul_eq, div_eq, (unpacks y).eq_infinity hy, (unpacks z).eq_zero hz, sign_eq, hsign, sign_eq]
  cases x.toModel.unpack with
  | notANumber => rfl
  | infinity s => rfl
  | zero s => cases s <;> cases isNegative y <;> rfl
  | finite s => cases s <;> cases isNegative y <;> rfl

/-- Of an infinity no product and no quotient knows more than the signs. -/
theorem infinity_mul_eq_div {z : Float} (hx : magnitudeBits x = infinityBits) (hz : ¬ z.isNaN)
    (hz' : magnitudeBits z ≠ 0) (hy : isFinite y) (hsign : isNegative z = isNegative y) :
    x * z = x / y := by
  have hzu := unpacks z
  have hyu := unpacks y
  rw [mul_eq, div_eq, (unpacks x).eq_infinity hx, sign_eq]
  generalize z.toModel.unpack = u at hzu
  generalize y.toModel.unpack = w at hyu
  have hybits : magnitudeBits y < infinityBits := of_decide_eq_true hy
  cases hyu with
  | nan h => omega
  | infinity h => omega
  | zero h | finite h =>
    cases hzu with
    | nan h => exact absurd (Binary64.isNaN_iff.mpr h) hz
    | zero h => exact absurd h hz'
    | infinity h | finite h =>
      rw [sign_eq, sign_eq, hsign]
      cases isNegative x <;> cases isNegative y <;> rfl

theorem unpack_one : ∃ m e hpos, (1 : Float).toModel.unpack = .finite (signOf false) m e hpos := by
  have hsome : magnitudeBits 1 ≠ 0 := by decide +kernel
  obtain ⟨hpos, hunpack⟩ := (unpacks 1).eq_finite isFinite_one hsome
  rw [sign_eq, isNegative_one] at hunpack
  exact ⟨_, _, hpos, hunpack⟩

theorem reciprocal_of_zero (hy : magnitudeBits y = 0) : 1 / y = infinity (isNegative y) := by
  obtain ⟨_, _, _, hone⟩ := unpack_one
  rw [div_eq, hone, (unpacks y).eq_zero hy, sign_eq, UnpackedFloat.div, signOf_div,
    Bool.false_bne, pack_infinity]

theorem reciprocal_of_infinity (hy : magnitudeBits y = infinityBits) :
    1 / y = zero (isNegative y) := by
  obtain ⟨_, _, _, hone⟩ := unpack_one
  rw [div_eq, hone, (unpacks y).eq_infinity hy, sign_eq, UnpackedFloat.div, signOf_div,
    Bool.false_bne, pack_zero]

theorem magnitudeBits_infinity (negative : Bool) :
    magnitudeBits (infinity negative) = infinityBits :=
  magnitudeBits_ofMagnitudeBits le_rfl

theorem isNegative_reciprocal (hy : isFinite y) : isNegative (1 / y) = isNegative y := by
  by_cases hzero : magnitudeBits y = 0
  · rw [reciprocal_of_zero hzero]
    exact isNegative_ofMagnitudeBits le_rfl
  · exact (isNearest_reciprocal hy hzero).isNegative

theorem not_isNaN_reciprocal (hy : isFinite y) : ¬ (1 / y).isNaN := by
  by_cases hzero : magnitudeBits y = 0
  · rw [reciprocal_of_zero hzero]
    exact not_isNaN_of_eq (magnitudeBits_infinity _)
  · exact (isNearest_reciprocal hy hzero).not_isNaN

/-- A reciprocal that is not infinite is the one of a number that is not zero. -/
theorem ne_zero_of_reciprocal (hfinite : magnitudeBits (1 / y) ≠ infinityBits) :
    magnitudeBits y ≠ 0 := by
  intro hzero
  rw [reciprocal_of_zero hzero, magnitudeBits_infinity] at hfinite
  exact hfinite rfl

/-- The least reciprocals are subnormal, but none is zero. -/
theorem reciprocal_ne_zero (hy : isFinite y) : magnitudeBits (1 / y) ≠ 0 := by
  by_cases hfinite : magnitudeBits (1 / y) = infinityBits
  · rw [hfinite]
    decide
  · intro hzero
    have hpos := reciprocal_pos hy (ne_zero_of_reciprocal hfinite) hfinite
    rw [absValue_of_eq_zero hzero] at hpos
    exact lt_irrefl _ hpos

/-! ## Two ways to divide -/

theorem magnitudeBits_of_not_isFinite (h : ¬ isFinite x) (hnan : ¬ x.isNaN) :
    magnitudeBits x = infinityBits := by
  rw [Binary64.isNaN_iff] at hnan
  rw [isFinite, decide_eq_true_eq] at h
  omega

theorem mul_reciprocal_of_divisor (hy : ¬ isFinite y) (x : Float) : x * (1 / y) = x / y := by
  by_cases hnan : y.isNaN
  · have hreciprocal : (1 / y).isNaN := by
      rw [div_of_isNaN (.inr hnan)]
      exact isNaN_pack
    rw [mul_of_isNaN (.inr hreciprocal), div_of_isNaN (.inr hnan)]
  · have hbits := magnitudeBits_of_not_isFinite hy hnan
    rw [reciprocal_of_infinity hbits]
    exact mul_zero_eq_div_infinity (magnitudeBits_ofMagnitudeBits (Nat.zero_le _)) hbits
      (isNegative_ofMagnitudeBits (Nat.zero_le _)) x

/-- Neither way rounds where an argument is infinite or NaN. -/
theorem mul_reciprocal_of_not_isFinite (h : ¬ isFinite x ∨ ¬ isFinite y) :
    x * (1 / y) = x / y := by
  by_cases hy : isFinite y
  · have hx := h.resolve_right (not_not_intro hy)
    by_cases hnan : x.isNaN
    · rw [mul_of_isNaN (.inl hnan), div_of_isNaN (.inl hnan)]
    · exact infinity_mul_eq_div (magnitudeBits_of_not_isFinite hx hnan) (not_isNaN_reciprocal hy)
        (reciprocal_ne_zero hy) hy (isNegative_reciprocal hy)
  · exact mul_reciprocal_of_divisor hy x

section Finite

variable (hx : isFinite x) (hy : isFinite y) (hfinite : magnitudeBits (1 / y) ≠ infinityBits)

include hx hy hfinite

theorem isNearest_mul_reciprocal :
    IsNearest (isNegative x != isNegative y) (absValue x * absValue (1 / y)) (x * (1 / y)) := by
  rw [← isNegative_reciprocal hy]
  exact isNearest_mul hx (isFinite_reciprocal hy (ne_zero_of_reciprocal hfinite) hfinite)

/-- The product and the quotient are rounded from the same value. -/
theorem mul_reciprocal_of_exact
    (h : absValue x * absValue (1 / y) = absValue x / absValue y) : x * (1 / y) = x / y := by
  have hproduct := isNearest_mul_reciprocal hx hy hfinite
  rw [h] at hproduct
  exact hproduct.unique (isNearest_div hx hy (ne_zero_of_reciprocal hfinite))

omit hx in
theorem mul_reciprocal_near (x : Float) :
    2 ^ 51 * |absValue x * absValue (1 / y) - absValue x / absValue y| ≤
      absValue x / absValue y := by
  have hnonneg : 0 ≤ absValue x := mul_nonneg (Nat.cast_nonneg _) (zpow_pos two_pos _).le
  have herror := reciprocal_error hy (ne_zero_of_reciprocal hfinite) hfinite
  rw [div_eq_mul_one_div (absValue x), ← mul_sub, abs_mul, abs_of_nonneg hnonneg, mul_left_comm]
  exact mul_le_mul_of_nonneg_left herror hnonneg

end Finite

/-- The product `p` of a number `x` with the reciprocal `r` of a divisor `y`, and the quotient `q`
of the two. -/
structure Approximates (x y r p q : Float) : Prop where
  of_two_pow (j : ℤ) (hj : absValue y = 2 ^ j) : p = q
  of_zero (hx : magnitudeBits x = 0) : p = q
  reciprocal : IsNearest (isNegative y) (1 / absValue y) r
  product : IsNearest (isNegative x != isNegative y) (absValue x * absValue r) p
  quotient : IsNearest (isNegative x != isNegative y) (absValue x / absValue y) q
  near : 2 ^ 51 * |absValue x * absValue r - absValue x / absValue y| ≤ absValue x / absValue y

/-- Between finite numbers, a reciprocal that is not infinite approximates the division. -/
theorem approximates (hx : isFinite x) (hy : isFinite y)
    (hfinite : magnitudeBits (1 / y) ≠ infinityBits) :
    Approximates x y (1 / y) (x * (1 / y)) (x / y) where
  of_two_pow j hj := by
    refine mul_reciprocal_of_exact hx hy hfinite ?_
    rw [reciprocal_of_two_pow hy (ne_zero_of_reciprocal hfinite) hfinite hj, mul_one_div]
  of_zero hzero := by
    refine mul_reciprocal_of_exact hx hy hfinite ?_
    rw [absValue_of_eq_zero hzero, zero_mul, zero_div]
  reciprocal := isNearest_reciprocal hy (ne_zero_of_reciprocal hfinite)
  product := isNearest_mul_reciprocal hx hy hfinite
  quotient := isNearest_div hx hy (ne_zero_of_reciprocal hfinite)
  near := mul_reciprocal_near hy hfinite x

end ReversePolish.Binary64
