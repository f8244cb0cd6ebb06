import ReversePolish.Binary64.Integer
import ReversePolish.Proofs.Binary64.Normal
import ReversePolish.Proofs.Rounding

/-! # Integers rounded to normal numbers

The relative error of a rounded integer is at most `2 ^ -53`. -/

namespace ReversePolish.Binary64

theorem lastPlace_one {n : ℕ} (hn : 0 < n) : lastPlace n 1 = (n.log2 : ℤ) - 52 := by
  have hone : Nat.log2 1 = 0 := by decide
  have hq : (n.log2 : ℤ) - (Nat.log2 1 : ℕ) - (fractionBits + 1 : ℕ) = n.log2 - 53 := by
    rw [hone, fractionBits]
    omega
  have houtside : ¬ n <<< (-((n.log2 : ℤ) - 53)).toNat <
      1 <<< (((n.log2 : ℤ) - 53).toNat + fractionBits + 1) := by
    rw [not_lt, Nat.one_shiftLeft, Nat.shiftLeft_eq, fractionBits]
    calc 2 ^ (((n.log2 : ℤ) - 53).toNat + 52 + 1)
        ≤ 2 ^ (n.log2 + (-((n.log2 : ℤ) - 53)).toNat) :=
          Nat.pow_le_pow_right (by decide) (by omega)
      _ = 2 ^ n.log2 * 2 ^ (-((n.log2 : ℤ) - 53)).toNat := Nat.pow_add ..
      _ ≤ n * 2 ^ (-((n.log2 : ℤ) - 53)).toNat :=
          Nat.mul_le_mul_right _ (Nat.log2_self_le hn.ne')
  simp only [lastPlace, hq, houtside, if_false]
  rw [leastExponent]
  omega

/-- The bits of a rounded significand are those of a normal number. -/
theorem ofMagnitudeBits_significand {m : ℕ} {q : ℤ} (hle : 2 ^ 52 ≤ m) (hlt : m ≤ 2 ^ 53)
    (hleast : -1074 ≤ q) (hgreatest : q ≤ 970) :
    ∃ m' e, ∃ h : IsNormal m' e, (m' : ℚ) * 2 ^ e = m * 2 ^ q ∧
      ofMagnitudeBits false ((q - leastExponent).toNat * 2 ^ fractionBits + m) = h.toFloat := by
  rcases Nat.lt_or_eq_of_le hlt with hlt | rfl
  · have h : IsNormal m q := ⟨hle, hlt, hleast, by omega⟩
    exact ⟨m, q, h, rfl, ofMagnitudeBits_normal h⟩
  · have h : IsNormal (2 ^ 52) (q + 1) := ⟨le_rfl, by decide, by omega, by omega⟩
    refine ⟨2 ^ 52, q + 1, h, ?_, ?_⟩
    · rw [zpow_add_one₀ two_ne_zero]
      push_cast
      ring
    · rw [bits_carry hleast, ofMagnitudeBits_normal h]

/-- An integer of at most 53 bits is shifted into place. -/
theorem roundedSignificand_of_short {n k : ℕ} (hn : 0 < n) (hk : n.log2 + k = 52) :
    roundedSignificand n 1 (-(k : ℤ)) = n * 2 ^ k ∧ 2 ^ 52 ≤ n * 2 ^ k ∧ n * 2 ^ k ≤ 2 ^ 53 := by
  refine ⟨?_, ?_, ?_⟩
  · simp only [roundedSignificand]
    rw [neg_neg, Int.toNat_natCast, Int.toNat_neg_natCast, Nat.shiftLeft_zero, divHalfEven_one,
      Nat.shiftLeft_eq]
  · rw [← hk, Nat.pow_add]
    exact Nat.mul_le_mul_right _ (Nat.log2_self_le hn.ne')
  · rw [show 53 = n.log2 + 1 + k by omega, Nat.pow_add]
    exact Nat.mul_le_mul_right _ Nat.lt_log2_self.le

/-- A longer integer loses the bits behind the first 53. -/
theorem roundedSignificand_of_long {n k : ℕ} (hn : 0 < n) (hk : n.log2 = 52 + k) :
    2 ^ 52 ≤ roundedSignificand n 1 k ∧ roundedSignificand n 1 k ≤ 2 ^ 53 ∧
      2 * (roundedSignificand n 1 k * 2 ^ k) ≤ 2 * n + 2 ^ k ∧
      2 * n ≤ 2 * (roundedSignificand n 1 k * 2 ^ k) + 2 ^ k := by
  have heq : roundedSignificand n 1 k = divHalfEven n (2 ^ k) := by
    simp only [roundedSignificand]
    rw [Int.toNat_neg_natCast, Int.toNat_natCast, Nat.shiftLeft_zero, Nat.one_shiftLeft]
  have hbounds := divHalfEven_bounds n (2 ^ k)
  have hlow : 2 ^ 52 ≤ n / 2 ^ k := by
    rw [Nat.le_div_iff_mul_le (Nat.two_pow_pos k), ← Nat.pow_add, ← hk]
    exact Nat.log2_self_le hn.ne'
  have hhigh : n / 2 ^ k < 2 ^ 53 := by
    rw [Nat.div_lt_iff_lt_mul (Nat.two_pow_pos k), ← Nat.pow_add,
      show 53 + k = n.log2 + 1 by omega]
    exact Nat.lt_log2_self
  rw [heq]
  exact ⟨hlow.trans hbounds.1, by omega, divHalfEven_error (Nat.two_pow_pos k) n⟩

/-- The significand of an integer stands for it up to a relative error. -/
theorem roundedSignificand_near {n : ℕ} (hn : 0 < n) :
    2 ^ 52 ≤ roundedSignificand n 1 (lastPlace n 1) ∧
      roundedSignificand n 1 (lastPlace n 1) ≤ 2 ^ 53 ∧
      2 ^ 53 * |(roundedSignificand n 1 (lastPlace n 1) : ℚ) * 2 ^ lastPlace n 1 - n| ≤ n := by
  rw [lastPlace_one hn]
  rcases Nat.le_total n.log2 52 with hlog | hlog
  · obtain ⟨k, hk⟩ := Nat.exists_eq_add_of_le hlog
    have hq : (n.log2 : ℤ) - 52 = -(k : ℤ) := by omega
    obtain ⟨heq, hlow, hhigh⟩ := roundedSignificand_of_short hn hk.symm
    have hexact : ((n * 2 ^ k : ℕ) : ℚ) * 2 ^ (-(k : ℤ)) - n = 0 := by
      rw [zpow_neg, zpow_natCast, Nat.cast_mul, Nat.cast_pow, Nat.cast_ofNat,
        mul_inv_cancel_right₀ (pow_ne_zero k two_ne_zero), sub_self]
    rw [hq, heq, hexact, abs_zero, mul_zero]
    exact ⟨hlow, hhigh, Nat.cast_nonneg n⟩
  · obtain ⟨k, hk⟩ := Nat.exists_eq_add_of_le hlog
    have hq : (n.log2 : ℤ) - 52 = k := by omega
    obtain ⟨hlow, hhigh, hbelow, habove⟩ := roundedSignificand_of_long hn hk
    have hplace : 2 ^ 52 * 2 ^ k ≤ n := by
      rw [← Nat.pow_add, ← hk]
      exact Nat.log2_self_le hn.ne'
    rw [hq, zpow_natCast]
    refine ⟨hlow, hhigh, ?_⟩
    have hbelow : (2 : ℚ) * (roundedSignificand n 1 k * 2 ^ k) ≤ 2 * n + 2 ^ k := by
      exact_mod_cast hbelow
    have habove : (2 : ℚ) * n ≤ 2 * (roundedSignificand n 1 k * 2 ^ k) + 2 ^ k := by
      exact_mod_cast habove
    have hplace : (2 : ℚ) ^ 52 * 2 ^ k ≤ n := by exact_mod_cast hplace
    have herror : |(roundedSignificand n 1 k : ℚ) * 2 ^ k - n| ≤ 2 ^ k / 2 :=
      abs_le.mpr ⟨by linarith, by linarith⟩
    linarith

/-- The bits that break ties stand behind the leading ones. -/
theorem leadingBits_of_dvd {n : ℕ} (h : 2 ^ (n.log2 + 1 - limbBits) ∣ n) : leadingBits n = n := by
  have hties : breaksTies n = false := by
    rw [breaksTies, List.any_eq_false]
    intro i hi
    have hi : i < n.log2 / 64 := List.mem_range.mp hi
    have hdvd : 2 ^ (limbBits * i) * 2 ^ leadingLimbBits n ∣ n := by
      rw [← pow_add]
      refine (Nat.pow_dvd_pow 2 ?_).trans h
      rw [leadingLimbBits, limbBits]
      omega
    have hmod := Nat.mod_eq_zero_of_dvd (Nat.dvd_div_of_mul_dvd hdvd)
    rw [Nat.shiftRight_eq_div_pow, Nat.one_shiftLeft, hmod]
    decide
  rw [leadingBits, hties, if_neg Bool.false_ne_true, Nat.shiftRight_eq_div_pow, Nat.shiftLeft_eq,
    Nat.div_mul_cancel h]

/-- A number of one limb has nothing behind its leading bits. -/
theorem leadingBits_of_lt {n : ℕ} (h : n < 2 ^ limbBits) : leadingBits n = n := by
  have hlog : n.log2 < limbBits := by
    rcases Nat.eq_zero_or_pos n with rfl | hn
    · decide
    · exact (Nat.log2_lt hn.ne').mpr h
  have hbehind : n.log2 + 1 - limbBits = 0 := by omega
  exact leadingBits_of_dvd (by rw [hbehind, pow_zero]; exact one_dvd n)

theorem ofInt_natCast {n : ℕ} (hlt : n < 2 ^ limbBits) : ofInt n = nearest false n 1 := by
  have hsign : decide ((n : ℤ) < 0) = false := decide_eq_false (by omega)
  rw [ofInt, Int.natAbs_natCast, leadingBits_of_lt hlt, hsign]

/-- The parts of an integer of one limb, and how far they are off. -/
theorem ofInt_normal {n : ℕ} (hn : 0 < n) (hlt : n < 2 ^ limbBits) :
    ∃ m e, ∃ h : IsNormal m e, ofInt n = h.toFloat ∧
      2 ^ 53 * |(m : ℚ) * 2 ^ e - n| ≤ n := by
  have hlog : n.log2 < 64 := (Nat.log2_lt hn.ne').mpr hlt
  obtain ⟨hlow, hhigh, hnear⟩ := roundedSignificand_near hn
  have hnumber : ofInt n = ofMagnitudeBits false (min ((lastPlace n 1 - leastExponent).toNat *
      2 ^ fractionBits + roundedSignificand n 1 (lastPlace n 1)) infinityBits) := by
    rw [ofInt_natCast hlt, nearest, if_neg hn.ne', ← Nat.shiftLeft_eq]
  have hq : lastPlace n 1 = (n.log2 : ℤ) - 52 := lastPlace_one hn
  generalize roundedSignificand n 1 (lastPlace n 1) = m at hlow hhigh hnear hnumber
  generalize lastPlace n 1 = q at hnear hnumber hq
  have hbits : (q - leastExponent).toNat * 2 ^ fractionBits + m ≤ infinityBits := by
    simp only [infinityBits, leastExponent, fractionBits]
    omega
  obtain ⟨m', e, h, hvalue, hfloat⟩ := ofMagnitudeBits_significand (q := q) hlow hhigh (by omega)
    (by omega)
  refine ⟨m', e, h, ?_, by rwa [hvalue]⟩
  rw [hnumber, Nat.min_eq_left hbits, hfloat]

end ReversePolish.Binary64
