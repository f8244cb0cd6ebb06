import ReversePolish.Binary64.Order
import ReversePolish.Proofs.Binary64.Unpacked

/-! # Exact values of numbers and their order

A number that is not NaN stands for an extended real. The total order puts the number of the greater
one behind, and numbers are equal where these are. -/

namespace ReversePolish.Binary64

open Float.Model Float.Model.UnpackedFloat

/-! ## Magnitudes -/

/-- The bits order the parts as their values are. -/
theorem IsCanonical.lt_of_bits_lt {m n : ℕ} {q r : ℤ} (h : IsCanonical m q) (h' : IsCanonical n r)
    (hbits : (q - leastExponent).toNat * 2 ^ fractionBits + m <
      (r - leastExponent).toNat * 2 ^ fractionBits + n) : (m : ℚ) * 2 ^ q < n * 2 ^ r := by
  have hm := h.lt
  have hn := h'.lt
  have hq := h.least
  have hr := h'.least
  simp only [leastExponent, fractionBits] at hbits
  rcases Int.lt_trichotomy q r with hlt | rfl | hgt
  · have hn : (2 : ℚ) ^ 52 ≤ n := by exact_mod_cast h'.full (by omega)
    calc (m : ℚ) * 2 ^ q < 2 ^ 53 * 2 ^ q :=
          mul_lt_mul_of_pos_right (by exact_mod_cast hm) (zpow_pos two_pos q)
      _ = 2 ^ 52 * 2 ^ (q + 1) := by
          rw [zpow_add_one₀ two_ne_zero]
          ring
      _ ≤ n * 2 ^ r := mul_le_mul hn (zpow_le_zpow_right₀ one_le_two hlt) (zpow_pos two_pos _).le
          (Nat.cast_nonneg n)
  · have hmn : m < n := by omega
    exact mul_lt_mul_of_pos_right (by exact_mod_cast hmn) (zpow_pos two_pos q)
  · have hfull := h.full (by omega)
    omega

variable {x y : Float}

theorem absValue_lt (hx : isFinite x) (hy : isFinite y) (h : magnitudeBits x < magnitudeBits y) :
    absValue x < absValue y := by
  rw [magnitudeBits_eq, magnitudeBits_eq y] at h
  exact (isCanonical hx).lt_of_bits_lt (isCanonical hy) h

/-- The exact absolute value, also of an infinity. -/
noncomputable def magnitude (x : Float) : EReal :=
  if isFinite x then ((absValue x : ℝ) : EReal) else ⊤

theorem magnitude_of_isFinite (h : isFinite x) : magnitude x = ((absValue x : ℝ) : EReal) := if_pos h

theorem magnitude_of_eq (h : magnitudeBits x = infinityBits) : magnitude x = ⊤ :=
  if_neg (not_isFinite_of_eq h)

theorem magnitude_lt (hy : ¬ y.isNaN) (h : magnitudeBits x < magnitudeBits y) :
    magnitude x < magnitude y := by
  have hle : magnitudeBits y ≤ infinityBits := not_lt.mp (mt isNaN_iff.mpr hy)
  have hx : isFinite x := decide_eq_true (h.trans_le hle)
  rw [magnitude_of_isFinite hx]
  rcases hle.lt_or_eq with hlt | heq
  · have hy : isFinite y := decide_eq_true hlt
    rw [magnitude_of_isFinite hy]
    exact_mod_cast absValue_lt hx hy h
  · rw [magnitude_of_eq heq]
    exact EReal.coe_lt_top _

theorem magnitude_of_eq_zero (h : magnitudeBits x = 0) : magnitude x = 0 := by
  have hfinite : isFinite x := by
    rw [isFinite, h]
    decide
  have hsignificand : significand x = 0 := by rw [significand_eq, h, if_pos (by decide)]
  rw [magnitude_of_isFinite hfinite, absValue, hsignificand, Nat.cast_zero, zero_mul]
  norm_cast

theorem magnitude_pos (hx : ¬ x.isNaN) (h : magnitudeBits x ≠ 0) : 0 < magnitude x := by
  have hzero : magnitudeBits 0 = 0 := by decide
  rw [← magnitude_of_eq_zero hzero]
  exact magnitude_lt hx (hzero ▸ Nat.pos_of_ne_zero h)

theorem magnitude_nonneg (hx : ¬ x.isNaN) : 0 ≤ magnitude x := by
  rcases eq_or_ne (magnitudeBits x) 0 with h | h
  · exact (magnitude_of_eq_zero h).ge
  · exact (magnitude_pos hx h).le

/-! ## Values -/

/-- The exact value of a number that is not NaN. -/
noncomputable def value (x : Float) : EReal := if isNegative x then -magnitude x else magnitude x

theorem value_of_isNegative (h : isNegative x) : value x = -magnitude x := if_pos h

theorem value_of_not_isNegative (h : ¬ isNegative x) : value x = magnitude x := if_neg h

theorem value_eq_zero_iff (hx : ¬ x.isNaN) : value x = 0 ↔ magnitudeBits x = 0 := by
  have hzero : magnitude x = 0 ↔ magnitudeBits x = 0 :=
    ⟨not_imp_not.mp fun h => (magnitude_pos hx h).ne', magnitude_of_eq_zero⟩
  rw [value]
  split
  · rw [EReal.neg_eq_zero_iff, hzero]
  · exact hzero

theorem eq_of_orderKey_eq (h : orderKey x = orderKey y) : x = y := by
  have hsign : isNegative x = isNegative y := by
    simp only [orderKey] at h
    cases hx : isNegative x <;> cases hy : isNegative y <;> simp [hx, hy] at h ⊢ <;> omega
  have hbits : magnitudeBits x = magnitudeBits y := by
    simp only [orderKey, hsign] at h
    split at h <;> omega
  rw [← ofMagnitudeBits_magnitudeBits x, hsign, hbits, ofMagnitudeBits_magnitudeBits]

/-- The order of the numbers is that of their values, but for zeros of different signs. -/
theorem value_lt_or_zero (hx : ¬ x.isNaN) (hy : ¬ y.isNaN) (h : orderKey x < orderKey y) :
    value x < value y ∨ magnitudeBits x = 0 ∧ magnitudeBits y = 0 := by
  simp only [orderKey] at h
  by_cases hnx : isNegative x <;> by_cases hny : isNegative y <;>
    simp only [hnx, hny, if_true, if_false, Bool.false_eq_true] at h
  · rw [value_of_isNegative hnx, value_of_isNegative hny, EReal.neg_lt_neg_iff]
    exact .inl (magnitude_lt hx (by omega))
  · rw [value_of_isNegative hnx, value_of_not_isNegative hny]
    by_cases hzero : magnitudeBits x = 0 ∧ magnitudeBits y = 0
    · exact .inr hzero
    · refine .inl ?_
      rcases not_and_or.mp hzero with hx' | hy'
      · calc -magnitude x < -0 := EReal.neg_lt_neg_iff.mpr (magnitude_pos hx hx')
          _ = 0 := neg_zero
          _ ≤ magnitude y := magnitude_nonneg hy
      · calc -magnitude x ≤ -0 := EReal.neg_le_neg_iff.mpr (magnitude_nonneg hx)
          _ = 0 := neg_zero
          _ < magnitude y := magnitude_pos hy hy'
  · omega
  · rw [value_of_not_isNegative hnx, value_of_not_isNegative hny]
    exact .inl (magnitude_lt hy (by omega))

theorem value_le (hx : ¬ x.isNaN) (hy : ¬ y.isNaN) (h : orderKey x ≤ orderKey y) :
    value x ≤ value y := by
  rcases h.lt_or_eq with hlt | heq
  · rcases value_lt_or_zero hx hy hlt with hlt | ⟨hzero, hzero'⟩
    · exact hlt.le
    · rw [(value_eq_zero_iff hx).mpr hzero, (value_eq_zero_iff hy).mpr hzero']
  · rw [eq_of_orderKey_eq heq]

/-- A value has one number, or is zero and has one of each sign. -/
theorem value_eq_iff (hx : ¬ x.isNaN) (hy : ¬ y.isNaN) :
    value x = value y ↔ x = y ∨ magnitudeBits x = 0 ∧ magnitudeBits y = 0 := by
  constructor
  · intro h
    rcases lt_trichotomy (orderKey x) (orderKey y) with hlt | heq | hgt
    · exact .inr ((value_lt_or_zero hx hy hlt).resolve_left h.not_lt)
    · exact .inl (eq_of_orderKey_eq heq)
    · exact .inr ((value_lt_or_zero hy hx hgt).resolve_left h.not_gt).symm
  · rintro (rfl | ⟨hzero, hzero'⟩)
    · rfl
    · rw [(value_eq_zero_iff hx).mpr hzero, (value_eq_zero_iff hy).mpr hzero']

/-! ## Equality -/

/-- Numbers are compared as equal if they have the same parts or both are zero. -/
theorem compare_eq_iff {u v : UnpackedFloat} : u.compare v = some .eq ↔
    u ≠ .notANumber ∧ u = v ∨ ∃ s t, u = .zero s ∧ v = .zero t := by
  cases u with
  | notANumber => simp [UnpackedFloat.compare]
  | infinity s =>
    cases v with
    | infinity t => cases s <;> cases t <;> simp [UnpackedFloat.compare, compare]
    | notANumber | zero | finite => cases s <;> simp [UnpackedFloat.compare]
  | zero s =>
    cases v with
    | zero t => simp [UnpackedFloat.compare]
    | infinity t | finite t => cases t <;> simp [UnpackedFloat.compare]
    | notANumber => simp [UnpackedFloat.compare]
  | finite s m e hpos =>
    cases v with
    | finite t =>
      cases s <;> cases t <;> simp [UnpackedFloat.compare, Ordering.then_eq_eq, and_comm]
    | infinity t | zero t => cases s <;> cases t <;> simp [UnpackedFloat.compare]
    | notANumber => simp [UnpackedFloat.compare]

/-- Numbers are equal where their values are. -/
theorem beq_iff (hx : ¬ x.isNaN) (hy : ¬ y.isNaN) : x == y ↔ value x = value y := by
  have hcompare : (x == y) = (x.toModel.unpack.compare y.toModel.unpack == some .eq) := rfl
  have hnumber : x.toModel.unpack ≠ .notANumber := fun h => hx (show UnpackedFloat.isNaN _ by rw [h]; rfl)
  rw [hcompare, beq_iff_eq, compare_eq_iff, unpack_inj, value_eq_iff hx hy,
    ← (unpacks x).exists_eq_zero_iff, ← (unpacks y).exists_eq_zero_iff]
  simp only [ne_eq, hnumber, not_false_eq_true, true_and, exists_and_left, exists_and_right]

end ReversePolish.Binary64
