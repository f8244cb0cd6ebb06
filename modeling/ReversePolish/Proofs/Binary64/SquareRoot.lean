import ReversePolish.Proofs.Binary64.Bounds
import ReversePolish.Proofs.Binary64.Root
import ReversePolish.Proofs.Binary64.Sum

/-! # Square roots of any number

The root of a finite number, subnormal or not, is within a factor of four of the exact one, and so
it is zero for zero only. -/

namespace ReversePolish.Binary64

open Float.Model Float.Model.UnpackedFloat

variable {x : Float}

/-! ## Integer roots -/

/-- Some number stands behind every significand. -/
theorem exists_extends (m : ℕ) (acc : Accuracy) :
    ∃ v, Extends (.ofMantissaAndAccuracy m acc) v := by
  rcases acc with _ | _ | _ | _
  · exact ⟨m, extends_exact m⟩
  · exact ⟨_, 1 / 4, by norm_num, by norm_num, by simp [ExtendedMantissa.ofMantissaAndAccuracy],
      rfl⟩
  · exact ⟨_, 0, by norm_num, by norm_num, by simp [ExtendedMantissa.ofMantissaAndAccuracy], rfl⟩
  · exact ⟨_, 1 / 4, by norm_num, by norm_num, by simp [ExtendedMantissa.ofMantissaAndAccuracy],
      rfl⟩

theorem sqrt_log2_ge {n : ℕ} (hpos : 0 < n) : n.log2 < 2 * n.sqrt.log2 + 2 := by
  refine (Nat.log2_lt hpos.ne').mpr ?_
  calc n < (n.sqrt + 1) * (n.sqrt + 1) := Nat.lt_succ_sqrt n
    _ ≤ 2 ^ (n.sqrt.log2 + 1) * 2 ^ (n.sqrt.log2 + 1) :=
        Nat.mul_le_mul Nat.lt_log2_self Nat.lt_log2_self
    _ = 2 ^ (2 * n.sqrt.log2 + 2) := by
        rw [← pow_add]
        congr 1
        omega

/-- The integer root is long enough for the format, unless it is in the least place. -/
theorem sqrtCore_long {m : ℕ} (e : ℤ) (hpos : 0 < m) :
    ∃ (k : ℕ) (t : ℤ) (acc : Accuracy), sqrtCore .binary64 m e = ((m * 2 ^ k).sqrt, t, acc) ∧
      (k : ℤ) + 2 * t = e ∧ t ≤ max (((m * 2 ^ k).sqrt.log2 : ℤ) + t - 52) (-1074) := by
  obtain ⟨t, ht⟩ : ∃ t, min (e / 2) (Format.binary64.targetExponent ((totalExponent m e + 1) / 2)) =
    t := ⟨_, rfl⟩
  obtain ⟨k, hk⟩ := Int.eq_ofNat_of_zero_le (show 0 ≤ e - 2 * t by omega)
  obtain ⟨acc, hcore⟩ := sqrtCore_eq ht (show (e - 2 * t).toNat = k by omega)
  refine ⟨k, t, acc, hcore, by omega, ?_⟩
  have hlog := log2_mul_two_pow hpos k
  have hroot := sqrt_log2_ge (Nat.mul_pos hpos (Nat.two_pow_pos k))
  rw [targetExponent_binary64, totalExponent] at ht
  omega

/-! ## Rounded roots -/

/-- A root is rounded from a number that is within a factor of two of the exact one. -/
theorem exists_isNearest_sqrt (hx : isFinite x) (hsign : IsUnsigned x) (hne : magnitudeBits x ≠ 0) :
    ∃ v, IsNearest false v x.sqrt ∧ v ^ 2 ≤ 4 * absValue x ∧ absValue x ≤ 4 * v ^ 2 := by
  obtain ⟨hpos, hunpack⟩ := (unpacks x).eq_finite hx hne
  obtain ⟨k, t, acc, hcore, hplaces, hlong⟩ := sqrtCore_long (exponent x) hpos
  obtain ⟨root, hroot⟩ : ∃ root, (significand x * 2 ^ k).sqrt = root := ⟨_, rfl⟩
  rw [hroot] at hcore hlong
  obtain ⟨w, hw⟩ := exists_extends root acc
  obtain ⟨hlow, hhigh⟩ := hw.significand_bounds
  have hrounded : x.sqrt =
      .ofModel (.pack (roundWithAccuracy .binary64 (signOf false) root t acc)) := by
    rw [sqrt_eq, hunpack, sign_eq, hsign.isNegative_eq]
    simp only [UnpackedFloat.sqrt, signOf, Bool.false_eq_true, if_false, hcore]
  have hsquare : absValue x = (significand x * 2 ^ k : ℕ) * (2 ^ t) ^ 2 := by
    rw [absValue, ← hplaces, zpow_add₀ two_ne_zero, zpow_natCast, two_mul,
      zpow_add₀ two_ne_zero]
    push_cast
    ring
  have hone : (1 : ℚ) ≤ root := by
    exact_mod_cast hroot ▸ Nat.sqrt_pos.mpr (Nat.mul_pos hpos (Nat.two_pow_pos k))
  have hbelow : (root : ℚ) * root ≤ (significand x * 2 ^ k : ℕ) := by
    exact_mod_cast hroot ▸ Nat.sqrt_le (significand x * 2 ^ k)
  have habove : ((significand x * 2 ^ k : ℕ) : ℚ) ≤ (root + 1) * (root + 1) := by
    exact_mod_cast hroot ▸ (Nat.lt_succ_sqrt (significand x * 2 ^ k)).le
  have hunit : (0 : ℚ) ≤ (2 ^ t) ^ 2 := sq_nonneg _
  refine ⟨w * 2 ^ t, hrounded ▸ isNearest_roundWithAccuracy false hw hlong (by linarith), ?_, ?_⟩
  · rw [hsquare, mul_pow, ← mul_assoc]
    refine mul_le_mul_of_nonneg_right ?_ hunit
    calc w ^ 2 ≤ (2 * root) ^ 2 := pow_le_pow_left₀ (by linarith) (by linarith) 2
      _ = 4 * (root * root) := by ring
      _ ≤ 4 * (significand x * 2 ^ k : ℕ) := by linarith
  · rw [hsquare, mul_pow, ← mul_assoc]
    refine mul_le_mul_of_nonneg_right (habove.trans ?_) hunit
    calc ((root : ℚ) + 1) * (root + 1) ≤ (2 * w) * (2 * w) :=
          mul_self_le_mul_self (by linarith) (by linarith)
      _ = 4 * w ^ 2 := by ring

theorem sqrt_of_eq_zero (hx : magnitudeBits x = 0) : x.sqrt = x := by
  have hparts : UnpackedFloat.sqrt .binary64 x.toModel.unpack = x.toModel.unpack := by
    rw [unpack_of_eq_zero hx]
    rfl
  rw [sqrt_eq, hparts, pack_unpack_toModel]

theorem IsUnsigned.sqrt_eq_infinity (h : IsUnsigned x) (hx : ¬ isFinite x) :
    x.sqrt = infinity false := by
  have hparts : UnpackedFloat.sqrt .binary64 x.toModel.unpack = .infinity (signOf false) := by
    rw [(unpacks x).eq_infinity (magnitudeBits_of_not_isFinite hx h.not_isNaN), sign_eq,
      h.isNegative_eq]
    rfl
  rw [sqrt_eq, hparts, pack_infinity]

theorem least_le_absValue (hx : isFinite x) (hne : magnitudeBits x ≠ 0) :
    2 ^ (-1075 : ℤ) < absValue x :=
  not_le.mp (mt (isNearest_self hx).magnitudeBits_eq_zero_iff.mpr hne)

section Finite

variable (hx : isFinite x) (hsign : IsUnsigned x) (hne : magnitudeBits x ≠ 0)

include hx hsign hne

/-- No root is subnormal, so that rounding does not even double or halve it. -/
theorem sqrt_bounds : absValue x.sqrt ^ 2 ≤ 16 * absValue x ∧ absValue x ≤ 16 * absValue x.sqrt ^ 2 := by
  obtain ⟨v, hnearest, hhigh, hlow⟩ := exists_isNearest_sqrt hx hsign hne
  have hnonneg := hnearest.nonneg
  have hroot := isFinite_sqrt hx hsign.not_isNegative
  have hleast := least_le_absValue hx hne
  have hnormal : (2 : ℚ) ^ (((1 : ℕ) : ℤ) - 1075) ≤ v := by
    refine le_of_sq_le_sq ?_ hnonneg
    calc ((2 : ℚ) ^ (((1 : ℕ) : ℤ) - 1075)) ^ 2 = 2 ^ (-2148 : ℤ) := by
          rw [← zpow_natCast, ← zpow_mul]
          norm_num
      _ ≤ 2 ^ (-1077 : ℤ) := zpow_le_zpow_right₀ one_le_two (by norm_num)
      _ = 2 ^ (-1075 : ℤ) / 4 := by
          rw [show (-1077 : ℤ) = -1075 - 2 by norm_num, zpow_sub₀ two_ne_zero]
          norm_num
      _ ≤ v ^ 2 := by linarith
  have herror := hnearest.error (lt_of_lt_of_le (zpow_pos two_pos _) hnormal)
    (hnearest.isFinite_iff.mp hroot) (by decide) hnormal
  obtain ⟨hbelow, habove⟩ := abs_le.mp (show |absValue x.sqrt - v| ≤ v / 2 by linarith)
  constructor
  · calc absValue x.sqrt ^ 2 ≤ (2 * v) ^ 2 :=
          pow_le_pow_left₀ (absValue_nonneg _) (by linarith) 2
      _ = 4 * v ^ 2 := by ring
      _ ≤ 16 * absValue x := by linarith
  · calc absValue x ≤ 4 * v ^ 2 := hlow
      _ ≤ 4 * (2 * absValue x.sqrt) ^ 2 := by
          gcongr
          linarith
      _ = 16 * absValue x.sqrt ^ 2 := by ring

end Finite

theorem IsUnsigned.sqrt (h : IsUnsigned x) : IsUnsigned x.sqrt := by
  by_cases hx : isFinite x
  · by_cases hzero : magnitudeBits x = 0
    · rwa [sqrt_of_eq_zero hzero]
    · obtain ⟨v, hnearest, -⟩ := exists_isNearest_sqrt hx h hzero
      exact hnearest.isUnsigned
  · rw [h.sqrt_eq_infinity hx]
    exact isUnsigned_infinity

/-- Only zero has the root zero. -/
theorem magnitudeBits_sqrt_eq_zero_iff (h : IsUnsigned x) :
    magnitudeBits x.sqrt = 0 ↔ magnitudeBits x = 0 := by
  constructor
  · intro hzero
    by_contra hne
    by_cases hx : isFinite x
    · obtain ⟨-, hle⟩ := sqrt_bounds hx h hne
      rw [absValue_of_eq_zero hzero] at hle
      have hpos := absValue_pos_of_ne_zero hne
      linarith
    · rw [h.sqrt_eq_infinity hx, magnitudeBits_infinity] at hzero
      exact absurd hzero (by decide)
  · intro hzero
    rw [sqrt_of_eq_zero hzero, hzero]

end ReversePolish.Binary64
