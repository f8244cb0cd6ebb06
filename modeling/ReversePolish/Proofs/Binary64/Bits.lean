import ReversePolish.Proofs.Binary64.Normal

/-! # Numbers and their bits

The bits of a number determine it, and are its sign and its magnitude. -/

namespace ReversePolish.Binary64

section Patterns

open Float.Model Float.Model.UnpackedFloat

/-! ## Patterns of bits -/

theorem toNat_unpackExponent (b : BitVec Format.binary64.numBits) :
    (unpackExponent b).toNat = b.toNat / 2 ^ 52 % 2 ^ 11 := by
  simp [unpackExponent, BitVec.extractLsb_toNat, Nat.shiftRight_eq_div_pow]

theorem toNat_unpackMantissa (b : BitVec Format.binary64.numBits) :
    (unpackMantissa b).toNat = b.toNat % 2 ^ 52 := by
  simp [unpackMantissa, BitVec.extractLsb_toNat]

theorem packComponents_unpack (b : BitVec Format.binary64.numBits) :
    packComponents .binary64 (Sign.ofBitVec (unpackSign b)) (unpackExponent b)
      (unpackMantissa b) = b := by
  have hsign (s : BitVec 1) : (Sign.ofBitVec s).toBitVec = s := by
    revert s
    decide
  have hlt : b.toNat < 2 ^ 64 := b.isLt
  apply BitVec.eq_of_toNat_eq
  rw [packComponents, hsign, toNat_append, toNat_append, toNat_unpackExponent,
    toNat_unpackMantissa, unpackSign, BitVec.toNat_cast, BitVec.extractLsb_toNat,
    Nat.shiftRight_eq_div_pow]
  norm_num
  omega

variable (s : Sign) {m : ℕ}

theorem pack_subnormal (hm : 0 < m) (hlt : m < 2 ^ 52) :
    UnpackedFloat.pack .binary64 (.finite s m (-1074) hm) =
      packComponents .binary64 s 0#11 (.ofNat 52 m) := by
  have hlog : ¬ m.log2 + 1 = Format.binary64.mantissaBits := by
    have hlog := (Nat.log2_lt hm.ne').mpr hlt
    have hbits : Format.binary64.mantissaBits = 53 := rfl
    omega
  unfold UnpackedFloat.pack
  dsimp only
  rw [if_neg (by decide), if_neg hlog]

/-- A pattern of bits that is no NaN but the one that there is comes back. -/
theorem pack_unpack {b : BitVec Format.binary64.numBits} (h : Format.binary64.Valid b) :
    UnpackedFloat.pack .binary64 (UnpackedFloat.unpack .binary64 b) = b := by
  have hfields {e : BitVec 11} {m : BitVec 52} (he : e = unpackExponent b)
      (hm : m = unpackMantissa b) :
      packComponents .binary64 (Sign.ofBitVec (unpackSign b)) e m = b := by
    rw [he, hm, packComponents_unpack]
  have hzero {k : ℕ} {v : BitVec k} (hv : v ≠ 0#k) : v.toNat ≠ 0 := fun hzero =>
    hv (BitVec.eq_of_toNat_eq (hzero.trans BitVec.toNat_zero.symm))
  have hexponent : (unpackExponent b).toNat < 2 ^ 11 := (unpackExponent b).isLt
  have hmantissa : (unpackMantissa b).toNat < 2 ^ 52 := (unpackMantissa b).isLt
  have hbias : (Format.binary64.exponentBias : ℤ) + (52 : ℕ) = 1075 := rfl
  unfold UnpackedFloat.unpack
  simp only [hbias]
  split
  · next hlast =>
    split
    · next hempty => exact hfields hlast.symm hempty.symm
    · next hsome => exact (h.eq_packedNaN hlast hsome).symm
  · next hfinite =>
    split
    · next hfirst =>
      split
      · next hempty => exact hfields hfirst.symm hempty.symm
      · next hsome =>
        have hleast : ((unpackExponent b).toNat : ℤ) - 1075 + 1 = -1074 := by
          rw [hfirst]
          rfl
        simp only [hleast]
        rw [pack_subnormal _ _ hmantissa]
        exact hfields hfirst.symm (by simp)
    · next hnormal =>
      have hlt : (unpackExponent b).toNat ≠ 2 ^ 11 - 1 := fun hlast =>
        hfinite (BitVec.eq_of_toNat_eq hlast)
      have hsignificand : (1#1 ++ unpackMantissa b).toNat = 2 ^ 52 + (unpackMantissa b).toNat := by
        rw [toNat_append]
        simp
      have hlog : (1#1 ++ unpackMantissa b).toNat.log2 = 52 :=
        (Nat.log2_eq_iff (by omega)).mpr ⟨by omega, by omega⟩
      rw [pack_of_log2_eq _ _ hlog (by omega)]
      refine hfields (by simp) (BitVec.eq_of_toNat_eq ?_)
      rw [BitVec.toNat_ofNat]
      omega

/-- The bits of finite numbers and infinities. -/
theorem valid_of_le {b : BitVec Format.binary64.numBits} (h : b.toNat % 2 ^ 63 ≤ infinityBits) :
    Format.binary64.Valid b := by
  refine ⟨fun hlast hsome => absurd (BitVec.eq_of_toNat_eq ?_) hsome⟩
  have hexponent : b.toNat / 2 ^ 52 % 2 ^ 11 = 2 ^ 11 - 1 := by
    rw [← toNat_unpackExponent, hlast]
    rfl
  rw [infinityBits, fractionBits] at h
  rw [toNat_unpackMantissa, BitVec.toNat_zero]
  omega

theorem toBits_ofBits {b : UInt64} (h : Format.binary64.Valid b.toBitVec) :
    (Float.ofBits b).toBits = b :=
  congrArg UInt64.ofBitVec (pack_unpack h)

theorem ofBits_toBits (x : Float) : Float.ofBits x.toBits = x := by
  have hbits : (Float.Model.ofBits x.toModel.toBits).toBits = x.toModel.toBits :=
    congrArg UInt64.ofBitVec (pack_unpack x.toModel.valid)
  have hmodel : Float.Model.ofBits x.toModel.toBits = x.toModel := by
    cases hx : x.toModel
    rw [hx] at hbits
    exact Float.Model.mk.injEq .. |>.mpr hbits
  exact congrArg Float.ofModel hmodel

end Patterns

/-! ## Sign and magnitude -/

variable {negative : Bool} {bits : ℕ}

theorem toNat_toBits_ofMagnitudeBits (h : bits ≤ infinityBits) :
    (ofMagnitudeBits negative bits).toBits.toNat = bits + if negative then 2 ^ 63 else 0 := by
  have hnumber : (UInt64.ofNat (bits + if negative then 1 <<< 63 else 0)).toNat =
      bits + if negative then 2 ^ 63 else 0 := by
    rw [Nat.one_shiftLeft]
    refine Nat.mod_eq_of_lt ?_
    rw [infinityBits, fractionBits] at h
    split <;> omega
  have hmod : (bits + if negative then 2 ^ 63 else 0) % 2 ^ 63 = bits := by
    rw [infinityBits, fractionBits] at h
    split <;> omega
  rw [ofMagnitudeBits, toBits_ofBits, hnumber]
  refine valid_of_le ?_
  rw [UInt64.toNat_toBitVec, hnumber, hmod]
  exact h

theorem magnitudeBits_ofMagnitudeBits (h : bits ≤ infinityBits) :
    magnitudeBits (ofMagnitudeBits negative bits) = bits := by
  rw [magnitudeBits, toNat_toBits_ofMagnitudeBits h, Nat.one_shiftLeft]
  rw [infinityBits, fractionBits] at h
  split <;> omega

theorem isNegative_ofMagnitudeBits (h : bits ≤ infinityBits) :
    isNegative (ofMagnitudeBits negative bits) = negative := by
  rw [isNegative, toNat_toBits_ofMagnitudeBits h, Nat.one_shiftLeft]
  rw [infinityBits, fractionBits] at h
  cases negative
  · exact decide_eq_false (by simp; omega)
  · exact decide_eq_true (by simp)

/-- A number is its sign and its magnitude. -/
theorem ofMagnitudeBits_magnitudeBits (x : Float) :
    ofMagnitudeBits (isNegative x) (magnitudeBits x) = x := by
  have hlt := x.toBits.toNat_lt
  have hbits : magnitudeBits x + (if isNegative x then 1 <<< 63 else 0) = x.toBits.toNat := by
    simp only [magnitudeBits, isNegative, Nat.one_shiftLeft, decide_eq_true_eq]
    split <;> omega
  rw [ofMagnitudeBits, hbits, UInt64.ofNat_toNat, ofBits_toBits]

end ReversePolish.Binary64
