import ReversePolish.Proofs.Binary64.Bits

/-! # Finite numbers

A finite number is plus or minus `m * 2 ^ q`, with parts that its value determines. Next to it there
is no other within `2 ^ -53` of its value. -/

namespace ReversePolish.Binary64

/-! ## Parts of a number -/

/-- The significands and exponents of finite numbers. -/
structure IsCanonical (m : ℕ) (q : ℤ) : Prop where
  lt : m < 2 ^ 53
  least : -1074 ≤ q
  greatest : q ≤ 971
  /-- The first bit is set where the last place could be a lower one. -/
  full : -1074 < q → 2 ^ 52 ≤ m

/-- The number with these parts. -/
def ofParts (negative : Bool) (m : ℕ) (q : ℤ) : Float :=
  ofMagnitudeBits negative ((q - leastExponent).toNat * 2 ^ fractionBits + m)

theorem magnitudeBits_eq (x : Float) :
    magnitudeBits x = (exponent x - leastExponent).toNat * 2 ^ fractionBits + significand x := by
  simp only [exponent, significand, leastExponent, fractionBits, Nat.one_shiftLeft,
    Nat.shiftRight_eq_div_pow]
  split <;> omega

theorem exponent_eq (x : Float) : exponent x = max 1 (magnitudeBits x / 2 ^ 52 : ℕ) - 1075 := by
  simp only [exponent, leastExponent, fractionBits, Nat.shiftRight_eq_div_pow]
  omega

theorem significand_eq (x : Float) : significand x =
    if magnitudeBits x < 2 ^ 52 then magnitudeBits x else magnitudeBits x % 2 ^ 52 + 2 ^ 52 := by
  simp only [significand, fractionBits, Nat.one_shiftLeft]

theorem isCanonical {x : Float} (h : isFinite x) : IsCanonical (significand x) (exponent x) := by
  simp only [isFinite, infinityBits, fractionBits, Nat.shiftLeft_eq, decide_eq_true_eq] at h
  rw [exponent_eq, significand_eq]
  refine ⟨?_, by omega, by omega, fun hmore => ?_⟩
  · split <;> omega
  · split <;> omega

theorem ofParts_eq (x : Float) : ofParts (isNegative x) (significand x) (exponent x) = x := by
  rw [ofParts, ← magnitudeBits_eq, ofMagnitudeBits_magnitudeBits]

variable {m n : ℕ} {q r : ℤ}

section OfParts

variable (h : IsCanonical m q) (negative : Bool)

include h

theorem IsCanonical.bits_lt : (q - leastExponent).toNat * 2 ^ fractionBits + m < infinityBits := by
  have hlt := h.lt
  have hleast := h.least
  have hgreatest := h.greatest
  simp only [infinityBits, leastExponent, fractionBits, Nat.shiftLeft_eq]
  omega

theorem IsCanonical.magnitudeBits_ofParts : magnitudeBits (ofParts negative m q) =
    (q - leastExponent).toNat * 2 ^ fractionBits + m :=
  magnitudeBits_ofMagnitudeBits h.bits_lt.le

theorem IsCanonical.isFinite_ofParts : isFinite (ofParts negative m q) := by
  rw [isFinite, h.magnitudeBits_ofParts]
  exact decide_eq_true h.bits_lt

theorem IsCanonical.isNegative_ofParts : isNegative (ofParts negative m q) = negative :=
  isNegative_ofMagnitudeBits h.bits_lt.le

theorem IsCanonical.significand_ofParts : significand (ofParts negative m q) = m := by
  have hlt := h.lt
  have hleast := h.least
  have hfull := h.full
  simp only [significand, h.magnitudeBits_ofParts, leastExponent, fractionBits, Nat.one_shiftLeft]
  split <;> omega

theorem IsCanonical.exponent_ofParts : exponent (ofParts negative m q) = q := by
  have hlt := h.lt
  have hleast := h.least
  have hfull := h.full
  simp only [exponent, h.magnitudeBits_ofParts, leastExponent, fractionBits,
    Nat.shiftRight_eq_div_pow]
  omega

end OfParts

theorem IsNormal.isCanonical (h : IsNormal m q) : IsCanonical m q :=
  ⟨h.lt, h.least, h.greatest, fun _ => h.le⟩

theorem IsNormal.toFloat_eq (h : IsNormal m q) : h.toFloat = ofParts false m q :=
  (ofMagnitudeBits_normal h).symm

/-! ## Values -/

/-- The bits of NaN are beyond those of infinity. -/
theorem isNaN_of_isFinite {x : Float} (h : isFinite x) : x.isNaN = false := by
  rw [Bool.eq_false_iff]
  intro hnan
  have hbits : x.toBits.toBitVec = Float.Model.UnpackedFloat.packedNaN .binary64 :=
    (Float.Model.UnpackedFloat.isNaN_unpack_iff_of_valid x.toModel.valid).mp hnan
  have hmagnitude : magnitudeBits x =
      (Float.Model.UnpackedFloat.packedNaN .binary64).toNat % (1 <<< 63) := by
    rw [magnitudeBits, ← hbits]
    rfl
  rw [isFinite, hmagnitude] at h
  revert h
  decide

/-- The exact absolute value of a finite number. -/
def absValue (x : Float) : ℚ := significand x * 2 ^ exponent x

theorem IsCanonical.absValue_ofParts (h : IsCanonical m q) (negative : Bool) :
    absValue (ofParts negative m q) = m * 2 ^ q := by
  rw [absValue, h.significand_ofParts, h.exponent_ofParts]

theorem absValue_pos {x : Float} (h : significand x ≠ 0) : 0 < absValue x := by
  have hm : (0 : ℚ) < significand x := by exact_mod_cast Nat.pos_of_ne_zero h
  exact mul_pos hm (zpow_pos two_pos _)

/-- No normal number is below the least one. -/
theorem absValue_ge_of_normal {x : Float} (hfinite : isFinite x) (hnormal : 2 ^ 52 ≤ significand x) :
    2 ^ (-1022 : ℤ) ≤ absValue x := by
  have hm : (2 : ℚ) ^ 52 ≤ significand x := by exact_mod_cast hnormal
  calc (2 : ℚ) ^ (-1022 : ℤ) = 2 ^ 52 * 2 ^ (-1074 : ℤ) := by
        rw [two_pow_mul_zpow]
        norm_num
    _ ≤ significand x * 2 ^ exponent x :=
        mul_le_mul hm (zpow_le_zpow_right₀ one_le_two (isCanonical hfinite).least)
          (zpow_pos two_pos _).le (Nat.cast_nonneg _)

theorem denominator_pos (x : Float) : 0 < denominator x := by
  rw [denominator, Nat.one_shiftLeft]
  exact Nat.two_pow_pos _

theorem numerator_pos {x : Float} (h : significand x ≠ 0) : 0 < numerator x := by
  rw [numerator, Nat.shiftLeft_eq]
  exact Nat.mul_pos (Nat.pos_of_ne_zero h) (Nat.two_pow_pos _)

theorem absValue_eq (x : Float) : absValue x = numerator x / denominator x := by
  rw [absValue, numerator, denominator, Nat.shiftLeft_eq, Nat.one_shiftLeft]
  obtain ⟨n, hn | hn⟩ := (exponent x).eq_nat_or_neg
  · simp [hn]
  · simp [hn, div_eq_mul_inv]

/-! ## Neighbours -/

/-- In units of a last place that is no higher than that of the other number. -/
theorem scaled_value {q r : ℤ} (hle : q ≤ r) (n : ℕ) :
    (n : ℚ) * 2 ^ r = (n * 2 ^ (r - q).toNat : ℕ) * 2 ^ q := by
  obtain ⟨k, rfl⟩ := Int.le.dest hle
  rw [zpow_add₀ two_ne_zero, zpow_natCast, add_sub_cancel_left, Int.toNat_natCast]
  push_cast
  ring

theorem near_of_scaled {a b c : ℕ} {q : ℤ}
    (h : 2 ^ 53 * |(a : ℚ) * 2 ^ q - b * 2 ^ q| < c * 2 ^ q) :
    2 ^ 53 * |(a : ℤ) - b| < c := by
  have hpos : (0 : ℚ) < 2 ^ q := zpow_pos two_pos q
  rw [← sub_mul, abs_mul, abs_of_pos hpos, ← mul_assoc] at h
  exact_mod_cast lt_of_mul_lt_mul_right h hpos.le

/-- A number within `2 ^ -53` of another is that other number. -/
theorem IsCanonical.eq_of_near (h : IsCanonical m q) (h' : IsCanonical n r)
    (hnear : 2 ^ 53 * |(n : ℚ) * 2 ^ r - m * 2 ^ q| < m * 2 ^ q) : n = m ∧ r = q := by
  have hm := h.lt
  have hn := h'.lt
  have hq := h.least
  have hr := h'.least
  rcases Int.lt_trichotomy r q with hlt | rfl | hlt
  · -- The other number has a lower last place, and lies a whole one of its own below.
    rw [scaled_value hlt.le] at hnear
    have hnear := near_of_scaled hnear
    have hfull := h.full (by omega)
    have hscale : 2 ≤ 2 ^ (q - r).toNat := Nat.le_self_pow (by omega) 2
    have hlong : 2 ^ 53 ≤ m * 2 ^ (q - r).toNat := Nat.mul_le_mul hfull hscale
    generalize m * 2 ^ (q - r).toNat = a at hnear hlong
    rw [abs_of_neg (by omega)] at hnear
    omega
  · have hnear := near_of_scaled hnear
    have hsame : |(n : ℤ) - m| < 1 := by omega
    rw [Int.abs_lt_one_iff] at hsame
    exact ⟨by omega, rfl⟩
  · rw [scaled_value hlt.le] at hnear
    have hnear := near_of_scaled hnear
    have hfull := h'.full (by omega)
    have hscale : 2 ≤ 2 ^ (r - q).toNat := Nat.le_self_pow (by omega) 2
    have hlong : 2 ^ 53 ≤ n * 2 ^ (r - q).toNat := Nat.mul_le_mul hfull hscale
    generalize n * 2 ^ (r - q).toNat = a at hnear hlong
    rw [abs_of_pos (by omega)] at hnear
    omega

theorem eq_of_near {x y : Float} (hx : isFinite x) (hy : isFinite y)
    (hsign : isNegative y = isNegative x)
    (hnear : 2 ^ 53 * |absValue y - absValue x| < absValue x) : y = x := by
  obtain ⟨hm, hq⟩ := (isCanonical hx).eq_of_near (isCanonical hy) hnear
  rw [← ofParts_eq y, hsign, hm, hq, ofParts_eq]

end ReversePolish.Binary64
