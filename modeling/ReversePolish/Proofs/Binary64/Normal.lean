import Mathlib
import ReversePolish.Binary64.Nearest

/-! # Normal numbers

A normal number is plus or minus `m * 2 ^ e` for a significand `m` of exactly 53 bits. Its bits and
its parts determine each other. -/

namespace ReversePolish.Binary64

open Float.Model Float.Model.UnpackedFloat

variable {m : ℕ} {e : ℤ}

/-- The significands and exponents of positive normal numbers. -/
structure IsNormal (m : ℕ) (e : ℤ) : Prop where
  le : 2 ^ 52 ≤ m
  lt : m < 2 ^ 53
  least : -1074 ≤ e
  greatest : e ≤ 971

theorem IsNormal.pos (h : IsNormal m e) : 0 < m :=
  (Nat.two_pow_pos 52).trans_le h.le

theorem IsNormal.log2_eq (h : IsNormal m e) : m.log2 = 52 :=
  (Nat.log2_eq_iff h.pos.ne').mpr ⟨h.le, h.lt⟩

/-- The parts of the number. -/
def IsNormal.unpacked (h : IsNormal m e) : UnpackedFloat :=
  .finite .positive m e h.pos

/-- The number with these parts. -/
def IsNormal.toFloat (h : IsNormal m e) : Float := .ofModel (.pack h.unpacked)

theorem two_pow_mul_zpow (k : ℕ) (q : ℤ) : (2 : ℚ) ^ k * 2 ^ q = 2 ^ (k + q) := by
  rw [zpow_add₀ two_ne_zero, zpow_natCast]

/-! ## Fields of bits -/

/-- A significand that has been rounded up to the next power of two carries into the exponent. -/
theorem bits_carry {q : ℤ} (hleast : -1074 ≤ q) :
    (q - leastExponent).toNat * 2 ^ fractionBits + 2 ^ 53 =
      (q + 1 - leastExponent).toNat * 2 ^ fractionBits + 2 ^ 52 := by
  simp only [leastExponent, fractionBits]
  omega

theorem toNat_append {k n : ℕ} (x : BitVec k) (y : BitVec n) :
    (x ++ y).toNat = x.toNat * 2 ^ n + y.toNat := by
  rw [BitVec.toNat_append, ← Nat.shiftLeft_add_eq_or_of_lt y.isLt, Nat.shiftLeft_eq]

theorem toNat_packComponents (e : BitVec 11) (m : BitVec 52) :
    (packComponents Format.binary64 .positive e m).toNat = e.toNat * 2 ^ 52 + m.toNat := by
  rw [packComponents, toNat_append, toNat_append]
  simp [Sign.toBitVec]

theorem pack_of_log2_eq (s : Sign) (hm : 0 < m) (hlog : m.log2 = 52) {k : ℕ} (hk : k < 2 ^ 11 - 1) :
    UnpackedFloat.pack .binary64 (.finite s m (k - 1075) hm) =
      packComponents .binary64 s (.ofNat 11 k) (.ofNat 52 m) := by
  have hbits : m.log2 + 1 = Format.binary64.mantissaBits := by
    rw [hlog]
    rfl
  have hfield : ((k : ℤ) - 1075 + Format.binary64.exponentBias +
      Format.binary64.mantissaBitsWithoutImplicit).toNat = k := by
    have hbias : (Format.binary64.exponentBias : ℤ) +
        Format.binary64.mantissaBitsWithoutImplicit = 1075 := rfl
    rw [add_assoc, hbias]
    omega
  unfold UnpackedFloat.pack
  dsimp only
  rw [hfield, if_neg (by omega), if_pos hbits]

/-- The bits of a normal number. -/
theorem pack_normal (h : IsNormal m e) :
    UnpackedFloat.pack Format.binary64 h.unpacked =
      packComponents Format.binary64 .positive (.ofNat 11 (e + 1075).toNat) (.ofNat 52 m) := by
  have hleast := h.least
  have hgreatest := h.greatest
  have hfield : ((e + 1075).toNat : ℤ) - 1075 = e := by omega
  have hpack := pack_of_log2_eq .positive h.pos h.log2_eq (k := (e + 1075).toNat) (by omega)
  rwa [hfield] at hpack

theorem unpack_pack_normal (h : IsNormal m e) :
    UnpackedFloat.unpack Format.binary64 (UnpackedFloat.pack Format.binary64 h.unpacked) =
      h.unpacked := by
  have hle := h.le
  have hlt := h.lt
  have hleast := h.least
  have hgreatest := h.greatest
  have hfield : (BitVec.ofNat 11 (e + 1075).toNat).toNat = (e + 1075).toNat := by
    rw [BitVec.toNat_ofNat, Nat.mod_eq_of_lt (by omega)]
  have hsome : BitVec.ofNat 11 (e + 1075).toNat ≠ 0#11 := by
    intro hzero
    have := hfield.symm.trans (congrArg BitVec.toNat hzero)
    simp at this
    omega
  have hfinite : BitVec.ofNat 11 (e + 1075).toNat ≠ -1#11 := by
    intro hall
    have := hfield.symm.trans (congrArg BitVec.toNat hall)
    simp at this
    omega
  have hsignificand : (1#1 ++ BitVec.ofNat 52 m).toNat = m := by
    rw [toNat_append, BitVec.toNat_ofNat]
    simp
    omega
  rw [pack_normal]
  simp only [UnpackedFloat.unpack, IsNormal.unpacked, unpackMantissa_packComponents,
    unpackExponent_packComponents, unpackSign_packComponents, hsome, hfinite, if_false,
    hsignificand, hfield]
  have hexponent : ((e + 1075).toNat : ℤ) - ((Format.binary64.exponentBias : ℤ) + 52) = e := by
    simp only [Format.exponentBias]
    omega
  exact UnpackedFloat.finite.injEq .. |>.mpr ⟨rfl, rfl, hexponent⟩

/-- The field of the exponent counts from the least one, and the first bit of the significand adds
one to it. -/
theorem toNat_pack_normal (h : IsNormal m e) :
    (UnpackedFloat.pack Format.binary64 h.unpacked).toNat =
      (e - leastExponent).toNat * 2 ^ fractionBits + m := by
  have hle := h.le
  have hlt := h.lt
  have hleast := h.least
  have hgreatest := h.greatest
  rw [pack_normal, toNat_packComponents, BitVec.toNat_ofNat, BitVec.toNat_ofNat,
    Nat.mod_eq_of_lt (by omega : (e + 1075).toNat < 2 ^ 11)]
  simp only [leastExponent, fractionBits]
  omega

theorem unpack_toFloat (h : IsNormal m e) :
    h.toFloat.toModel.unpack = h.unpacked :=
  unpack_pack_normal h

/-- The bits read as a number. -/
theorem ofMagnitudeBits_normal (h : IsNormal m e) :
    ofMagnitudeBits false ((e - leastExponent).toNat * 2 ^ fractionBits + m) = h.toFloat := by
  have hbits : (UInt64.ofNat ((e - leastExponent).toNat * 2 ^ fractionBits + m)).toBitVec =
      UnpackedFloat.pack Format.binary64 h.unpacked := by
    apply BitVec.eq_of_toNat_eq
    rw [← toNat_pack_normal h]
    exact Nat.mod_eq_of_lt (BitVec.isLt _)
  simp only [ofMagnitudeBits, Float.ofBits, Float.Model.ofBits]
  rw [if_neg Bool.false_ne_true, Nat.add_zero, hbits, unpack_pack_normal]
  rfl

end ReversePolish.Binary64
