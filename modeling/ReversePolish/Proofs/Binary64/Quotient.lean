import ReversePolish.Proofs.Binary64.Order
import ReversePolish.Proofs.Binary64.Root

/-! # The range of quotients and roots

A quotient of finite numbers below `2 ^ 1023` is finite, and so is the root of a finite number. An
infinite operand is not made up for: over an infinite divisor it gives NaN. -/

namespace ReversePolish.Binary64

open Float.Model Float.Model.UnpackedFloat

/-! ## Packed numbers -/

theorem magnitudeBits_pack {u : UnpackedFloat} {s : Sign} {e : BitVec 11} {m : BitVec 52}
    (h : UnpackedFloat.pack .binary64 u = packComponents .binary64 s e m) :
    magnitudeBits (.ofModel (.pack u)) = e.toNat * 2 ^ 52 + m.toNat := by
  have hbits : (Float.ofModel (.pack u)).toBits.toNat =
      (UnpackedFloat.pack Format.binary64 u).toNat := rfl
  have he := e.isLt
  have hm := m.isLt
  rw [magnitudeBits, hbits, h, packComponents, toNat_append, toNat_append, Nat.one_shiftLeft]
  omega

theorem magnitudeBits_pack_zero (s : Sign) : magnitudeBits (.ofModel (.pack (.zero s))) = 0 := by
  rw [magnitudeBits_pack (s := s) (e := 0) (m := 0) rfl]
  rfl

theorem isFinite_pack_zero (s : Sign) : isFinite (.ofModel (.pack (.zero s))) := by
  rw [isFinite, magnitudeBits_pack_zero]
  decide

theorem magnitudeBits_pack_infinity (s : Sign) :
    magnitudeBits (.ofModel (.pack (.infinity s))) = infinityBits := by
  rw [magnitudeBits_pack (s := s) (e := -1#11) (m := 0) rfl]
  rfl

theorem isNaN_pack : (Float.ofModel (.pack .notANumber)).isNaN := by
  rw [isNaN_iff, magnitudeBits_pack (s := .positive) (e := -1#11) (m := 1#52 <<< 51) rfl]
  decide

theorem isFinite_pack (s : Sign) {m : ℕ} {e : ℤ} (hm : 0 < m) (he : e ≤ 971) :
    isFinite (.ofModel (.pack (.finite s m e hm))) := by
  have hbias : (Format.binary64.exponentBias : ℤ) + (52 : ℕ) = 1075 := rfl
  obtain ⟨k, f, hk, hpack⟩ : ∃ (k : BitVec 11) (f : BitVec 52), k.toNat < 2047 ∧
      UnpackedFloat.pack .binary64 (.finite s m e hm) = packComponents .binary64 s k f := by
    unfold UnpackedFloat.pack
    simp only [add_assoc, hbias]
    rw [if_neg (by omega)]
    split
    · refine ⟨_, _, ?_, rfl⟩
      rw [BitVec.toNat_ofNat]
      omega
    · exact ⟨_, _, by decide, rfl⟩
  have hf := f.isLt
  rw [isFinite, magnitudeBits_pack hpack]
  refine decide_eq_true (show _ < 2047 * 2 ^ 52 by omega)

/-! ## Rounding -/

theorem mantissa_shiftRight (em : ExtendedMantissa) (k : ℕ) :
    (em >>> k).mantissa = em.mantissa / 2 ^ k := by
  change (k.repeat ExtendedMantissa.shiftRightOne em).mantissa = _
  induction k with
  | zero => rw [Nat.repeat, pow_zero, Nat.div_one]
  | succ k ih =>
    rw [Nat.repeat, ExtendedMantissa.shiftRightOne, ih, Nat.div_div_eq_div_mul, pow_succ]

theorem roundedMantissa_le (em : ExtendedMantissa) : em.roundedMantissa ≤ em.mantissa + 1 := by
  rw [ExtendedMantissa.roundedMantissa]
  rcases em.accuracy with _ | _ | _ | _
  · exact Nat.le_succ _
  · exact Nat.le_succ _
  · exact Nat.add_le_add_left (Nat.le_of_lt_succ (Nat.mod_lt _ two_pos)) _
  · exact le_rfl

theorem exists_shiftToTargetExponent (m : ℕ) (e : ℤ) (acc : Accuracy) :
    ∃ (k : ℕ) (em : ExtendedMantissa), k = (max ((m.log2 : ℤ) + 1 + e - 53) (-1074) - e).toNat ∧
      em.mantissa = m / 2 ^ k ∧ shiftToTargetExponent .binary64 m e acc = (em, e + k) := by
  refine ⟨_, _, rfl, ?_, rfl⟩
  rw [mantissa_shiftRight]
  congr 1
  rcases acc with _ | _ | _ | _ <;> rfl

/-- Rounding adds at most one to the exponent. -/
theorem isFinite_roundWithAccuracy (s : Sign) {m : ℕ} {e : ℤ} (acc : Accuracy) (he : e ≤ 970)
    (hlog : (m.log2 : ℤ) + e ≤ 1022) :
    isFinite (.ofModel (.pack (roundWithAccuracy .binary64 s m e acc))) := by
  obtain ⟨k, em, hk, hmantissa, hshift⟩ := exists_shiftToTargetExponent m e acc
  have hrounded : em.roundedMantissa ≤ 2 ^ 53 := by
    have hlt : m / 2 ^ k < 2 ^ 53 := by
      rw [Nat.div_lt_iff_lt_mul (Nat.two_pow_pos k), ← pow_add]
      exact Nat.lt_log2_self.trans_le (Nat.pow_le_pow_right two_pos (by omega))
    have hle := roundedMantissa_le em
    omega
  obtain ⟨k', em', hk', -, hshift'⟩ :=
    exists_shiftToTargetExponent em.roundedMantissa (e + k) .exact
  have hlog' : em.roundedMantissa.log2 < 54 := by
    rcases Nat.eq_zero_or_pos em.roundedMantissa with hzero | hpos
    · rw [hzero]
      decide
    · exact (Nat.log2_lt hpos.ne').mpr (by omega)
  simp only [roundWithAccuracy, hshift, hshift']
  split
  · exact isFinite_pack_zero s
  · exact isFinite_pack s _ (by omega)

/-! ## Quotients -/

section Quotients

variable {x y : Float}

theorem div_eq (x y : Float) : x / y =
    .ofModel (.pack (UnpackedFloat.div .binary64 x.toModel.unpack y.toModel.unpack)) := rfl

/-- The dividend is shifted so far that the quotient has all its bits. -/
theorem divCore_eq (m n : ℕ) (q r : ℤ) :
    ∃ (k : ℕ) (t : ℤ), t = min (q - r) (max ((m.log2 : ℤ) - n.log2 + (q - r) - 53) (-1074)) ∧
      t + k = q - r ∧ divCore .binary64 m q n r =
        (m * 2 ^ k / n, t, accuracyOfFraction (m * 2 ^ k % n) n) := by
  obtain ⟨t, ht⟩ : ∃ t, t = min (q - r) (max ((m.log2 : ℤ) - n.log2 + (q - r) - 53) (-1074)) :=
    ⟨_, rfl⟩
  obtain ⟨k, hk⟩ := Int.le.dest (show t ≤ q - r by omega)
  refine ⟨k, t, ht, hk, ?_⟩
  have htarget : min (q - r) (max ((m.log2 : ℤ) + 1 + q - (n.log2 + 1 + r) - 53) (-1074)) = t := by
    omega
  have hamount : (q - r - t).toNat = k := by omega
  simp only [divCore, totalExponent, targetExponent_binary64, htarget, hamount, Nat.shiftLeft_eq]

/-- The quotient by a number from two on has room below the greatest exponent. -/
theorem divCore_bounds {m n : ℕ} {q r : ℤ} (hm : IsCanonical m q) (hpos : 0 < m) (hpos' : 0 < n)
    (hge : 2 ≤ (n : ℚ) * 2 ^ r) :
    ∃ a t acc, divCore .binary64 m q n r = (a, t, acc) ∧ t ≤ 970 ∧ (a.log2 : ℤ) + t ≤ 1022 := by
  have hgreatest := hm.greatest
  have hlogm : m.log2 < 53 := (Nat.log2_lt hpos.ne').mpr hm.lt
  have hlogn : 1 ≤ (n.log2 : ℤ) + r := by
    have hlt : (n : ℚ) < 2 ^ (n.log2 + 1) := by exact_mod_cast Nat.lt_log2_self
    have hlt : (2 : ℚ) ^ (1 : ℤ) < 2 ^ ((n.log2 : ℤ) + 1 + r) := by
      calc (2 : ℚ) ^ (1 : ℤ) ≤ n * 2 ^ r := by rwa [zpow_one]
        _ < 2 ^ (n.log2 + 1) * 2 ^ r := mul_lt_mul_of_pos_right hlt (zpow_pos two_pos r)
        _ = 2 ^ ((n.log2 : ℤ) + 1 + r) := by
          rw [two_pow_mul_zpow]
          norm_cast
    have hlt := (zpow_lt_zpow_iff_right₀ one_lt_two).mp hlt
    omega
  obtain ⟨k, t, ht, hk, hcore⟩ := divCore_eq m n q r
  refine ⟨_, _, _, hcore, by omega, ?_⟩
  rcases Nat.eq_zero_or_pos (m * 2 ^ k / n) with hzero | hsome
  · rw [hzero, Nat.log2_zero]
    omega
  · have hlt : 2 ^ ((m * 2 ^ k / n).log2 + n.log2) < 2 ^ (m.log2 + 1 + k) := by
      calc 2 ^ ((m * 2 ^ k / n).log2 + n.log2) = 2 ^ (m * 2 ^ k / n).log2 * 2 ^ n.log2 :=
            pow_add ..
        _ ≤ m * 2 ^ k / n * n := Nat.mul_le_mul (Nat.log2_self_le hsome.ne')
            (Nat.log2_self_le hpos'.ne')
        _ ≤ m * 2 ^ k := Nat.div_mul_le_self ..
        _ < 2 ^ (m.log2 + 1) * 2 ^ k :=
            Nat.mul_lt_mul_of_pos_right Nat.lt_log2_self (Nat.two_pow_pos k)
        _ = 2 ^ (m.log2 + 1 + k) := (pow_add ..).symm
    have hlt := (Nat.pow_lt_pow_iff_right one_lt_two).mp hlt
    omega

theorem isFinite_of_divCore (s : Sign) {m n : ℕ} {q r : ℤ} (hm : IsCanonical m q) (hpos : 0 < m)
    (hpos' : 0 < n) (hge : 2 ≤ (n : ℚ) * 2 ^ r) (s' : Sign) :
    isFinite (.ofModel (.pack (UnpackedFloat.div .binary64 (.finite s m q hpos)
      (.finite s' n r hpos')))) := by
  obtain ⟨a, t, acc, hcore, ht, hlog⟩ := divCore_bounds hm hpos hpos' hge
  simp only [UnpackedFloat.div, hcore]
  exact isFinite_roundWithAccuracy _ acc ht hlog

theorem Unpacks.isFinite_div {u v : UnpackedFloat} (hu : Unpacks x u) (hv : Unpacks y v)
    (hx : isFinite x) (hy : ¬ y.isNaN) (hge : ((2 : ℝ) : EReal) ≤ magnitude y) :
    isFinite (.ofModel (.pack (UnpackedFloat.div .binary64 u v))) := by
  have hbits : magnitudeBits x < infinityBits := of_decide_eq_true hx
  rw [Binary64.isNaN_iff] at hy
  cases hu with
  | nan h => omega
  | infinity h => omega
  | zero h =>
    cases hv with
    | nan h' => exact absurd h' hy
    | infinity h' => exact isFinite_pack_zero _
    | zero h' =>
      rw [magnitude_of_eq_zero h'] at hge
      exact absurd (EReal.coe_le_coe_iff.mp hge) (by norm_num)
    | finite h' => exact isFinite_pack_zero _
  | finite h hpos =>
    cases hv with
    | nan h' => exact absurd h' hy
    | infinity h' => exact isFinite_pack_zero _
    | zero h' =>
      rw [magnitude_of_eq_zero h'] at hge
      exact absurd (EReal.coe_le_coe_iff.mp hge) (by norm_num)
    | finite h' hpos' =>
      rw [magnitude_of_isFinite h', EReal.coe_le_coe_iff] at hge
      have hge : 2 ≤ absValue y := by exact_mod_cast hge
      exact isFinite_of_divCore _ (isCanonical h) hpos hpos' hge _

/-- A quotient by a number from two on is finite. -/
theorem isFinite_div (hx : isFinite x) (hy : ¬ y.isNaN) (hge : ((2 : ℝ) : EReal) ≤ magnitude y) :
    isFinite (x / y) :=
  (unpacks x).isFinite_div (unpacks y) hx hy hge

theorem Unpacks.eq_infinity {u : UnpackedFloat} (hu : Unpacks x u)
    (hx : magnitudeBits x = infinityBits) : u = .infinity (sign x) := by
  have hpositive : 0 < infinityBits := by decide
  cases hu with
  | nan h => omega
  | infinity h => rfl
  | zero h => omega
  | finite h =>
    have hlt : magnitudeBits x < infinityBits := of_decide_eq_true h
    omega

theorem Unpacks.eq_nan {u : UnpackedFloat} (hu : Unpacks x u) (hx : x.isNaN) :
    u = .notANumber := by
  have hbits : infinityBits < magnitudeBits x := Binary64.isNaN_iff.mp hx
  cases hu with
  | nan h => rfl
  | infinity h => omega
  | zero h => omega
  | finite h =>
    have hlt : magnitudeBits x < infinityBits := of_decide_eq_true h
    omega

theorem Unpacks.eq_zero {u : UnpackedFloat} (hu : Unpacks x u) (hx : magnitudeBits x = 0) :
    u = .zero (sign x) := by
  obtain ⟨s, rfl⟩ := hu.exists_eq_zero_iff.mpr hx
  cases hu with
  | zero h => rfl

theorem Unpacks.eq_finite {u : UnpackedFloat} (hu : Unpacks x u) (hx : isFinite x)
    (hne : magnitudeBits x ≠ 0) :
    ∃ hpos, u = .finite (sign x) (significand x) (exponent x) hpos := by
  have hbits : magnitudeBits x < infinityBits := of_decide_eq_true hx
  cases hu with
  | nan h => omega
  | infinity h => omega
  | zero h => exact absurd h hne
  | finite h hpos => exact ⟨hpos, rfl⟩

theorem Unpacks.div_infinity {v : UnpackedFloat} (hv : Unpacks y v) (hy : isFinite y) (s : Sign) :
    ∃ s', UnpackedFloat.div .binary64 (.infinity s) v = .infinity s' := by
  have hbits : magnitudeBits y < infinityBits := of_decide_eq_true hy
  cases hv with
  | nan h => omega
  | infinity h => omega
  | zero h => exact ⟨_, rfl⟩
  | finite h => exact ⟨_, rfl⟩

/-- An infinite dividend has an infinite quotient by what is finite. -/
theorem magnitudeBits_div (hx : magnitudeBits x = infinityBits) (hy : isFinite y) :
    magnitudeBits (x / y) = infinityBits := by
  obtain ⟨s, hs⟩ := (unpacks y).div_infinity hy (sign x)
  rw [div_eq, (unpacks x).eq_infinity hx, hs, magnitudeBits_pack_infinity]

theorem isNaN_div (hx : magnitudeBits x = infinityBits) (hy : magnitudeBits y = infinityBits) :
    (x / y).isNaN := by
  have hnan : UnpackedFloat.div .binary64 x.toModel.unpack y.toModel.unpack = .notANumber := by
    rw [(unpacks x).eq_infinity hx, (unpacks y).eq_infinity hy]
    rfl
  rw [div_eq, hnan]
  exact isNaN_pack

end Quotients

/-! ## Roots -/

section Roots

variable {x : Float}

theorem sqrtCore_bounds {m : ℕ} {e : ℤ} (h : IsCanonical m e) (hpos : 0 < m) :
    ∃ a t acc, sqrtCore .binary64 m e = (a, t, acc) ∧ t ≤ 970 ∧ (a.log2 : ℤ) + t ≤ 1022 := by
  have hgreatest := h.greatest
  have hlog : m.log2 < 53 := (Nat.log2_lt hpos.ne').mpr h.lt
  obtain ⟨t, ht⟩ : ∃ t, min (e / 2) (Format.binary64.targetExponent ((totalExponent m e + 1) / 2)) =
    t := ⟨_, rfl⟩
  obtain ⟨k, hk⟩ : ∃ k, (e - 2 * t).toNat = k := ⟨_, rfl⟩
  obtain ⟨acc, hcore⟩ := sqrtCore_eq ht hk
  refine ⟨_, t, acc, hcore, by omega, ?_⟩
  rcases Nat.eq_zero_or_pos (m * 2 ^ k).sqrt with hzero | hsome
  · rw [hzero, Nat.log2_zero]
    omega
  · have hlt : 2 ^ ((m * 2 ^ k).sqrt.log2 + (m * 2 ^ k).sqrt.log2) < 2 ^ (m.log2 + 1 + k) := by
      have hlow := Nat.log2_self_le hsome.ne'
      calc 2 ^ ((m * 2 ^ k).sqrt.log2 + (m * 2 ^ k).sqrt.log2) =
            2 ^ (m * 2 ^ k).sqrt.log2 * 2 ^ (m * 2 ^ k).sqrt.log2 := pow_add ..
        _ ≤ (m * 2 ^ k).sqrt * (m * 2 ^ k).sqrt := Nat.mul_le_mul hlow hlow
        _ ≤ m * 2 ^ k := Nat.sqrt_le _
        _ < 2 ^ (m.log2 + 1) * 2 ^ k :=
            Nat.mul_lt_mul_of_pos_right Nat.lt_log2_self (Nat.two_pow_pos k)
        _ = 2 ^ (m.log2 + 1 + k) := (pow_add ..).symm
    have hlt := (Nat.pow_lt_pow_iff_right one_lt_two).mp hlt
    omega

theorem sqrt_eq (x : Float) :
    x.sqrt = .ofModel (.pack (UnpackedFloat.sqrt .binary64 x.toModel.unpack)) := rfl

theorem Unpacks.isFinite_sqrt {u : UnpackedFloat} (hu : Unpacks x u) (hx : isFinite x)
    (hsign : ¬ isNegative x) :
    isFinite (.ofModel (.pack (UnpackedFloat.sqrt .binary64 u))) := by
  have hbits : magnitudeBits x < infinityBits := of_decide_eq_true hx
  cases hu with
  | nan h => omega
  | infinity h => omega
  | zero h => exact isFinite_pack_zero _
  | finite h hpos =>
    obtain ⟨a, t, acc, hcore, ht, hlog⟩ := sqrtCore_bounds (isCanonical h) hpos
    have hpositive : sign x = .positive := if_neg hsign
    rw [hpositive]
    simp only [UnpackedFloat.sqrt, hcore]
    exact isFinite_roundWithAccuracy _ acc ht hlog

theorem isFinite_sqrt (hx : isFinite x) (hsign : ¬ isNegative x) : isFinite x.sqrt :=
  (unpacks x).isFinite_sqrt hx hsign

theorem magnitudeBits_sqrt (hx : magnitudeBits x = infinityBits) (hsign : ¬ isNegative x) :
    magnitudeBits x.sqrt = infinityBits := by
  have hinfinite : UnpackedFloat.sqrt .binary64 x.toModel.unpack = .infinity .positive := by
    rw [(unpacks x).eq_infinity hx, sign, if_neg hsign]
    rfl
  rw [sqrt_eq, hinfinite, magnitudeBits_pack_infinity]

end Roots

end ReversePolish.Binary64
