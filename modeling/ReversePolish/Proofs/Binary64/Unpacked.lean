import ReversePolish.Proofs.Binary64.Finite

/-! # Numbers taken apart

The arithmetic of numbers works on their signs, significands and exponents. These are the parts that
the bits of a number hold. -/

namespace ReversePolish.Binary64

open Float.Model Float.Model.UnpackedFloat

def sign (x : Float) : Sign := if isNegative x then .negative else .positive

/-- A number is NaN, an infinity or a zero, or it has a significand. -/
inductive Unpacks (x : Float) : UnpackedFloat → Prop where
  | nan (h : infinityBits < magnitudeBits x) : Unpacks x .notANumber
  | infinity (h : magnitudeBits x = infinityBits) : Unpacks x (.infinity (sign x))
  | zero (h : magnitudeBits x = 0) : Unpacks x (.zero (sign x))
  | finite (h : isFinite x) (hpos : 0 < significand x) :
      Unpacks x (.finite (sign x) (significand x) (exponent x) hpos)

theorem ofBitVec_unpackSign {x : Float} {b : BitVec Format.binary64.numBits}
    (hb : x.toBits.toBitVec = b) : Sign.ofBitVec (unpackSign b) = sign x := by
  have hlt : b.toNat < 2 ^ 64 := b.isLt
  have hbit : (unpackSign b).toNat = b.toNat / 2 ^ 63 := by
    rw [unpackSign, BitVec.toNat_cast, BitVec.extractLsb_toNat, Nat.shiftRight_eq_div_pow]
    norm_num
    omega
  have hnegative : isNegative x = decide (1 ≤ b.toNat / 2 ^ 63) := by
    rw [isNegative, Nat.one_shiftLeft, ← hb, UInt64.toNat_toBitVec]
    exact decide_eq_decide.mpr (by omega)
  rw [Sign.ofBitVec, sign, hnegative]
  simp only [decide_eq_true_eq, ← BitVec.toNat_inj, hbit, BitVec.toNat_ofNat]
  split <;> split <;> first | rfl | omega

theorem Unpacks.of_parts {x : Float} {m : ℕ} {e : ℤ} (h : isFinite x) (hm : significand x = m)
    (he : exponent x = e) (hpos : 0 < m) : Unpacks x (.finite (sign x) m e hpos) := by
  subst hm he
  exact .finite h hpos

theorem unpacks (x : Float) : Unpacks x x.toModel.unpack := by
  change Unpacks x (UnpackedFloat.unpack .binary64 x.toBits.toBitVec)
  obtain ⟨b, hb⟩ : ∃ b : BitVec Format.binary64.numBits, x.toBits.toBitVec = b := ⟨_, rfl⟩
  rw [hb]
  have hbits : magnitudeBits x = (unpackExponent b).toNat * 2 ^ 52 + (unpackMantissa b).toNat := by
    rw [toNat_unpackExponent, toNat_unpackMantissa, ← hb, UInt64.toNat_toBitVec, magnitudeBits,
      Nat.one_shiftLeft]
    omega
  have hbias : (Format.binary64.exponentBias : ℤ) + (52 : ℕ) = 1075 := rfl
  have hne {k : ℕ} {v w : BitVec k} (h : v ≠ w) : v.toNat ≠ w.toNat := mt BitVec.eq_of_toNat_eq h
  have hexponent : _ < 2 ^ 11 := (unpackExponent b).isLt
  have hmantissa : _ < 2 ^ 52 := (unpackMantissa b).isLt
  have hsignificand := significand_eq x
  have hplace := exponent_eq x
  unfold UnpackedFloat.unpack
  simp only [ofBitVec_unpackSign hb, hbias]
  split
  · next hlast =>
    rw [hlast] at hbits
    split
    · next hempty =>
      rw [hempty] at hbits
      exact .infinity hbits
    · next hsome =>
      have hsome : _ ≠ 0 := hne hsome
      have hbits : magnitudeBits x = 2047 * 2 ^ 52 + _ := hbits
      exact .nan (show 2047 * 2 ^ 52 < magnitudeBits x by omega)
  · next hlast =>
    have hlast : _ ≠ 2047 := hne hlast
    have hfinite : isFinite x := decide_eq_true (show magnitudeBits x < 2047 * 2 ^ 52 by omega)
    split
    · next hfirst =>
      have hzero : _ = 0 := congrArg BitVec.toNat hfirst
      split
      · next hempty =>
        have hempty : _ = 0 := congrArg BitVec.toNat hempty
        exact .zero (by omega)
      · exact .of_parts hfinite (by rw [hsignificand, if_pos] <;> omega) (by omega) _
    · next hfirst =>
      have hfirst : _ ≠ 0 := hne hfirst
      have hfull : (1#1 ++ unpackMantissa b).toNat = 2 ^ 52 + (unpackMantissa b).toNat := by
        rw [toNat_append]
        simp
      exact .of_parts hfinite (by rw [hsignificand, hfull, if_neg] <;> omega) (by omega) _

theorem Unpacks.isNaN_iff {x : Float} {u : UnpackedFloat} (h : Unpacks x u) :
    u.isNaN ↔ infinityBits < magnitudeBits x := by
  cases h with
  | nan h => exact iff_of_true rfl h
  | infinity h => exact iff_of_false Bool.false_ne_true h.not_gt
  | zero h => exact iff_of_false Bool.false_ne_true (h ▸ (Nat.zero_le _).not_gt)
  | finite h =>
    have hlt : magnitudeBits x < infinityBits := of_decide_eq_true h
    exact iff_of_false Bool.false_ne_true hlt.not_gt

/-- NaN is what lies beyond the infinities. -/
theorem isNaN_iff {x : Float} : x.isNaN ↔ infinityBits < magnitudeBits x :=
  (unpacks x).isNaN_iff

theorem not_isNaN_of_eq {x : Float} (h : magnitudeBits x = infinityBits) : ¬ x.isNaN := by
  rw [isNaN_iff, h]
  exact lt_irrefl _

theorem not_isFinite_of_eq {x : Float} (h : magnitudeBits x = infinityBits) : ¬ isFinite x := by
  rw [isFinite, h]
  decide

theorem Unpacks.exists_eq_zero_iff {x : Float} {u : UnpackedFloat} (h : Unpacks x u) :
    (∃ s, u = .zero s) ↔ magnitudeBits x = 0 := by
  have hpositive : 0 < infinityBits := by decide
  cases h with
  | nan h => exact iff_of_false (by simp) (by omega)
  | infinity h => exact iff_of_false (by simp) (by omega)
  | zero h => exact iff_of_true ⟨_, rfl⟩ h
  | finite h hpos =>
    have hbits := magnitudeBits_eq x
    exact iff_of_false (by simp) (by omega)

theorem unpack_inj {x y : Float} : x.toModel.unpack = y.toModel.unpack ↔ x = y := by
  refine ⟨fun h => ?_, fun h => h ▸ rfl⟩
  have hbits : x.toBits.toBitVec = y.toBits.toBitVec := by
    calc x.toBits.toBitVec = UnpackedFloat.pack .binary64 x.toModel.unpack :=
          (pack_unpack x.toModel.valid).symm
      _ = UnpackedFloat.pack .binary64 y.toModel.unpack := by rw [h]
      _ = y.toBits.toBitVec := pack_unpack y.toModel.valid
  rw [← ofBits_toBits x, UInt64.toBitVec_inj.mp hbits, ofBits_toBits]

end ReversePolish.Binary64
