import ReversePolish.Decimal.Reading
import ReversePolish.Proofs.Binary64.Closest

/-! # Decimal notation is read to the nearest number

What is read without computing a power of ten is what is nearest, too. -/

namespace ReversePolish.Decimal

open Binary64

/-- The number as a fraction. -/
theorem scientific_quotient (n : ℕ) (e : ℤ) :
    ((n * 10 ^ e.toNat : ℕ) / (10 ^ (-e).toNat : ℕ) : ℚ) = n * 10 ^ e := by
  have h := scaled_quotient 10 n 1 (-e)
  rw [neg_neg, one_mul] at h
  rw [h, zpow_neg, Nat.cast_one, div_one, div_inv_eq_mul, Nat.cast_ofNat]

theorem overflowBound_le {n : ℕ} (hn : n ≠ 0) {e : ℤ} (he : greatestExponent < e) :
    overflowBound ≤ n * 10 ^ e := by
  have hone : (1 : ℚ) ≤ n := by exact_mod_cast Nat.one_le_iff_ne_zero.mpr hn
  have hpos : (0 : ℚ) < 2 ^ (971 : ℤ) := zpow_pos two_pos _
  have hlow : (2 : ℚ) ^ (53 : ℤ) * 2 ^ (971 : ℤ) ≤ 8 ^ (400 : ℤ) := by
    have hbase : (8 : ℚ) = 2 ^ (3 : ℤ) := by norm_num
    rw [← zpow_add₀ two_ne_zero, hbase, ← zpow_mul]
    exact zpow_le_zpow_right₀ one_le_two (by norm_num)
  calc overflowBound ≤ 2 ^ (53 : ℤ) * 2 ^ (971 : ℤ) :=
        mul_le_mul_of_nonneg_right (by norm_num) hpos.le
    _ ≤ 8 ^ (400 : ℤ) := hlow
    _ ≤ 10 ^ (400 : ℤ) := zpow_le_zpow_left₀ (by norm_num) (by norm_num) (by norm_num)
    _ ≤ 10 ^ e := zpow_le_zpow_right₀ (by norm_num) he.le
    _ ≤ n * 10 ^ e := le_mul_of_one_le_left (by positivity) hone

/-- A negative power of ten is below the same power of eight. -/
theorem scientific_lt {n : ℕ} {e : ℤ} (he : e < 0) :
    (n : ℚ) * 10 ^ e < 2 ^ ((n.log2 : ℤ) + 1 + 3 * e) := by
  have hn : (n : ℚ) < 2 ^ (n.log2 + 1) := by exact_mod_cast Nat.lt_log2_self
  have hpow : (10 : ℚ) ^ e ≤ 2 ^ (3 * e) := by
    rw [zpow_mul, ← inv_le_inv₀ (by positivity) (by positivity), ← zpow_neg, ← zpow_neg]
    exact zpow_le_zpow_left₀ (by omega) (by norm_num) (by norm_num)
  calc (n : ℚ) * 10 ^ e < 2 ^ (n.log2 + 1) * 10 ^ e := mul_lt_mul_of_pos_right hn (by positivity)
    _ ≤ 2 ^ (n.log2 + 1) * 2 ^ (3 * e) := mul_le_mul_of_nonneg_left hpow (by positivity)
    _ = 2 ^ ((n.log2 : ℤ) + 1 + 3 * e) := by
        rw [← zpow_natCast, ← zpow_add₀ two_ne_zero, Nat.cast_add_one]

/-- Beyond the cut-offs the nearest number is infinite or zero as well. -/
theorem toBinary64_eq (negative : Bool) (n : ℕ) (e : ℤ) :
    toBinary64 negative n e = nearest negative (n * 10 ^ e.toNat) (10 ^ (-e).toNat) := by
  have hden : 0 < 10 ^ (-e).toNat := by positivity
  unfold toBinary64
  split
  · next hzero => rw [hzero, Nat.zero_mul, nearest, if_pos rfl]
  · next hne =>
    have hnum : 0 < n * 10 ^ e.toNat := Nat.mul_pos (Nat.pos_of_ne_zero hne) (by positivity)
    split
    · next hgreat =>
      refine (nearest_of_ge hnum hden ?_ negative).symm
      rw [scientific_quotient]
      exact overflowBound_le hne hgreat
    · split
      · next hwhole =>
        rw [Int.toNat_eq_zero.mpr (show -e ≤ 0 by omega)]
        rfl
      · next hfraction =>
        split
        · next hsmall =>
          refine (nearest_of_small hnum hden ?_ negative).symm
          rw [scientific_quotient]
          refine (scientific_lt (by omega)).trans_le (zpow_le_zpow_right₀ one_le_two ?_)
          omega
        · rw [Int.toNat_eq_zero.mpr (show e ≤ 0 by omega), pow_zero, mul_one]
          rfl

end ReversePolish.Decimal
