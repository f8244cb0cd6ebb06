import ReversePolish.Proofs.Binary64.Reciprocal

/-! # Sums and differences

A sum of finite numbers that are not negative is the number nearest to the exact one. Zero changes
no number but the other zero, and NaN stays NaN. -/

namespace ReversePolish.Binary64

open Float.Model Float.Model.UnpackedFloat

variable {x y : Float}

theorem add_eq (x y : Float) : x + y =
    .ofModel (.pack (UnpackedFloat.add .binary64 x.toModel.unpack y.toModel.unpack)) := rfl

theorem sub_eq (x y : Float) : x - y =
    .ofModel (.pack (UnpackedFloat.sub .binary64 x.toModel.unpack y.toModel.unpack)) := rfl

/-- What is packed from the parts of a number is that number. -/
theorem pack_unpack_toModel (x : Float) : Float.ofModel (.pack x.toModel.unpack) = x :=
  ofBits_toBits x

/-! ## NaN -/

theorem sub_of_isNaN (h : x.isNaN ∨ y.isNaN) : x - y = .ofModel (.pack .notANumber) := by
  rw [sub_eq]
  rcases h with h | h
  · rw [(unpacks x).eq_nan h]
    rfl
  · rw [(unpacks y).eq_nan h]
    cases x.toModel.unpack <;> rfl

/-! ## Zeros -/

theorem unpack_of_eq_zero (hx : magnitudeBits x = 0) :
    x.toModel.unpack = .zero (signOf (isNegative x)) :=
  (unpacks x).eq_zero hx

theorem eq_zero_of_magnitudeBits (hx : magnitudeBits x = 0) : x = zero (isNegative x) := by
  rw [zero, ← hx, ofMagnitudeBits_magnitudeBits]

theorem unpack_zero : (0 : Float).toModel.unpack = .zero .positive :=
  unpack_of_eq_zero (by decide)

/-- A difference from zero is the number itself, whatever its sign. -/
theorem sub_zero (x : Float) : x - 0 = x := by
  have hparts (u : UnpackedFloat) : UnpackedFloat.sub .binary64 u (.zero .positive) = u := by
    cases u with
    | zero s => cases s <;> rfl
    | notANumber => rfl
    | infinity s => rfl
    | finite s m e hpos => rfl
  rw [sub_eq, unpack_zero, hparts, pack_unpack_toModel]

theorem add_zero_of_ne (hx : magnitudeBits x ≠ 0) : x + 0 = x := by
  have hparts : UnpackedFloat.add .binary64 x.toModel.unpack (.zero .positive) =
      x.toModel.unpack := by
    have hu := unpacks x
    generalize x.toModel.unpack = u at hu ⊢
    cases hu with
    | zero h => exact absurd h hx
    | nan h => rfl
    | infinity h => rfl
    | finite h hpos => rfl
  rw [add_eq, unpack_zero, hparts, pack_unpack_toModel]

theorem add_zero_of_eq (hx : magnitudeBits x = 0) : x + 0 = 0 := by
  have hparts (s : Sign) : UnpackedFloat.add .binary64 (.zero s) (.zero .positive) =
      .zero .positive := by
    cases s <;> rfl
  rw [add_eq, unpack_zero, unpack_of_eq_zero hx, hparts, ← unpack_zero, pack_unpack_toModel]

theorem zero_add_of_not_isNegative (hx : magnitudeBits x = 0) (hy : ¬ isNegative y) :
    x + y = y := by
  have hparts (s : Sign) : UnpackedFloat.add .binary64 (.zero s) y.toModel.unpack =
      y.toModel.unpack := by
    have hu := unpacks y
    have hsign : sign y = .positive := if_neg hy
    generalize y.toModel.unpack = u at hu ⊢
    cases hu with
    | zero h =>
      rw [hsign]
      cases s <;> rfl
    | nan h => rfl
    | infinity h => rfl
    | finite h hpos => rfl
  rw [add_eq, unpack_of_eq_zero hx, hparts, pack_unpack_toModel]

/-! ## Numbers that are not negative -/

theorem isNearest_self (hx : isFinite x) : IsNearest (isNegative x) (absValue x) x := by
  by_cases hzero : magnitudeBits x = 0
  · rw [absValue_of_eq_zero hzero]
    nth_rewrite 2 [eq_zero_of_magnitudeBits hzero]
    exact isNearest_zero _
  · have hpos := absValue_pos fun hsignificand => hzero (by
      rw [significand_eq] at hsignificand
      split at hsignificand
      · exact hsignificand
      · omega)
    refine ⟨numerator x, denominator x, denominator_pos x, absValue_eq x, ?_⟩
    refine (nearest_eq_of_near hx (denominator_pos x) ?_).symm
    rwa [← absValue_eq, sub_self, abs_zero, mul_zero]

theorem log2_mul_two_pow {m : ℕ} (hpos : 0 < m) (k : ℕ) : (m * 2 ^ k).log2 = m.log2 + k := by
  rw [Nat.log2_eq_iff (Nat.mul_pos hpos (Nat.two_pow_pos k)).ne']
  constructor
  · rw [pow_add]
    exact Nat.mul_le_mul_right _ (Nat.log2_self_le hpos.ne')
  · rw [Nat.add_right_comm, pow_add]
    exact Nat.mul_lt_mul_of_pos_right Nat.lt_log2_self (Nat.two_pow_pos k)

/-- A significand of any length and place is brought to the place of rounding first. -/
theorem isNearest_round (negative : Bool) {m : ℕ} (hpos : 0 < m) (e : ℤ) :
    IsNearest negative (m * 2 ^ e)
      (.ofModel (.pack (UnpackedFloat.round .binary64 (signOf negative) m e))) := by
  obtain ⟨k, hk⟩ : ∃ k, (e - max ((m.log2 : ℤ) + 1 + e - 53) (-1074)).toNat = k := ⟨_, rfl⟩
  have hround : UnpackedFloat.round .binary64 (signOf negative) m e =
      roundWithAccuracy .binary64 (signOf negative) (m * 2 ^ k) (e - k) .exact := by
    simp only [UnpackedFloat.round, decreaseExponent, totalExponent, targetExponent_binary64, hk,
      Nat.shiftLeft_eq]
  have hlog := log2_mul_two_pow hpos k
  have hvalue : (m * 2 ^ e : ℚ) = (m * 2 ^ k : ℕ) * 2 ^ (e - k) := by
    rw [Nat.cast_mul, Nat.cast_pow, Nat.cast_ofNat, mul_assoc, two_pow_mul_zpow]
    congr 2
    omega
  rw [hround, hvalue]
  refine isNearest_roundWithAccuracy negative (extends_exact _) (by omega) ?_
  exact_mod_cast Nat.mul_pos hpos (Nat.two_pow_pos k)

/-- The significands are added in units of the lower place. -/
theorem isNearest_total {m n : ℕ} (q r : ℤ) (hpos : 0 < m) (hpos' : 0 < n) :
    IsNearest false (m * 2 ^ q + n * 2 ^ r)
      (.ofModel (.pack (UnpackedFloat.add .binary64 (.finite .positive m q hpos)
        (.finite .positive n r hpos')))) := by
  obtain ⟨t, ht⟩ : ∃ t, min q r = t := ⟨_, rfl⟩
  have hsum : 0 < m * 2 ^ (q - t).toNat + n * 2 ^ (r - t).toNat := by positivity
  have hadd : UnpackedFloat.add .binary64 (.finite .positive m q hpos) (.finite .positive n r hpos') =
      UnpackedFloat.round .binary64 .positive
        (m * 2 ^ (q - t).toNat + n * 2 ^ (r - t).toNat) t := by
    have hcompare : compare ((m * 2 ^ (q - t).toNat : ℕ) + (n * 2 ^ (r - t).toNat : ℕ) : ℤ) 0 = .gt := by
      rw [compare_gt_iff_gt]
      exact_mod_cast hsum
    simp only [UnpackedFloat.add, decreaseExponent, Sign.apply, UnpackedFloat.normalize, ht,
      Nat.shiftLeft_eq, hcompare]
    rfl
  rw [hadd, scaled_value (show t ≤ q by omega), scaled_value (show t ≤ r by omega), ← add_mul,
    ← Nat.cast_add]
  exact isNearest_round false hsum t

/-- The numbers from zero on, infinity among them. -/
structure IsUnsigned (x : Float) : Prop where
  not_isNaN : ¬ x.isNaN
  not_isNegative : ¬ isNegative x

theorem isUnsigned_infinity : IsUnsigned (infinity false) :=
  ⟨not_isNaN_of_eq (magnitudeBits_infinity false),
    by simp [infinity, isNegative_ofMagnitudeBits le_rfl]⟩

theorem IsNearest.isUnsigned {v : ℚ} (h : IsNearest false v x) : IsUnsigned x :=
  ⟨h.not_isNaN, by simp [h.isNegative]⟩

theorem IsUnsigned.isNegative_eq (h : IsUnsigned x) : isNegative x = false :=
  Bool.eq_false_of_not_eq_true h.not_isNegative

theorem IsUnsigned.isNearest_self (h : IsUnsigned x) (hx : isFinite x) :
    IsNearest false (absValue x) x :=
  h.isNegative_eq ▸ Binary64.isNearest_self hx

theorem IsUnsigned.isNearest_add (hx : IsUnsigned x) (hy : IsUnsigned y) (hx' : isFinite x)
    (hy' : isFinite y) : IsNearest false (absValue x + absValue y) (x + y) := by
  by_cases hxz : magnitudeBits x = 0
  · rw [zero_add_of_not_isNegative hxz hy.not_isNegative, absValue_of_eq_zero hxz, zero_add]
    exact hy.isNearest_self hy'
  by_cases hyz : magnitudeBits y = 0
  · obtain rfl : y = 0 := by
      rw [eq_zero_of_magnitudeBits hyz, hy.isNegative_eq]
      rfl
    rw [add_zero_of_ne hxz, absValue_of_eq_zero hyz, add_zero]
    exact hx.isNearest_self hx'
  · obtain ⟨hpos, hxu⟩ := (unpacks x).eq_finite hx' hxz
    obtain ⟨hpos', hyu⟩ := (unpacks y).eq_finite hy' hyz
    rw [sign_eq, hx.isNegative_eq] at hxu
    rw [sign_eq, hy.isNegative_eq] at hyu
    rw [add_eq, hxu, hyu]
    exact isNearest_total (exponent x) (exponent y) hpos hpos'

theorem IsUnsigned.unpack_ne (h : IsUnsigned x) : x.toModel.unpack ≠ .notANumber ∧
    x.toModel.unpack ≠ .infinity .negative := by
  have hu := unpacks x
  have hsign : sign x = .positive := if_neg h.not_isNegative
  generalize x.toModel.unpack = u at hu ⊢
  cases hu with
  | nan hbits => exact absurd (isNaN_iff.mpr hbits) h.not_isNaN
  | infinity hbits => simp [hsign]
  | zero hbits => simp
  | finite hfinite hpos => simp

/-- Infinity stays, whatever is added. -/
theorem IsUnsigned.add_eq_infinity (hx : IsUnsigned x) (hy : IsUnsigned y)
    (h : ¬ isFinite x ∨ ¬ isFinite y) : x + y = infinity false := by
  have hinfinite {z : Float} (hz : IsUnsigned z) (hz' : ¬ isFinite z) :
      z.toModel.unpack = .infinity .positive := by
    rw [(unpacks z).eq_infinity (magnitudeBits_of_not_isFinite hz' hz.not_isNaN), sign_eq,
      hz.isNegative_eq]
    rfl
  have hadd {u : UnpackedFloat} (hu : u ≠ .notANumber ∧ u ≠ .infinity .negative) :
      UnpackedFloat.add .binary64 (.infinity .positive) u = .infinity .positive ∧
        UnpackedFloat.add .binary64 u (.infinity .positive) = .infinity .positive := by
    cases u with
    | notANumber => exact absurd rfl hu.1
    | infinity s =>
      cases s with
      | positive => exact ⟨rfl, rfl⟩
      | negative => exact absurd rfl hu.2
    | zero s => exact ⟨rfl, rfl⟩
    | finite s m e hpos => exact ⟨rfl, rfl⟩
  rw [add_eq]
  rcases h with h | h
  · rw [hinfinite hx h, (hadd hy.unpack_ne).1]
    exact pack_infinity false
  · rw [hinfinite hy h, (hadd hx.unpack_ne).2]
    exact pack_infinity false

theorem IsUnsigned.add (hx : IsUnsigned x) (hy : IsUnsigned y) : IsUnsigned (x + y) := by
  by_cases h : isFinite x ∧ isFinite y
  · exact (hx.isNearest_add hy h.1 h.2).isUnsigned
  · rw [hx.add_eq_infinity hy (not_and_or.mp h)]
    exact isUnsigned_infinity

end ReversePolish.Binary64
