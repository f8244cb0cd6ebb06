import ReversePolish.Proofs.Binary64.Closest
import ReversePolish.Proofs.Binary64.Quotient

/-! # Correct rounding

A significand of any length, together with what is known of the bits behind it, is rounded to the
number nearest to what it stands for. -/

namespace ReversePolish.Binary64

open Float.Model Float.Model.UnpackedFloat

/-! ## Significands with what stands behind them -/

/-- The significand is the integral part of the number, one bit the half behind it, and the other
says whether anything is left. -/
def Extends (em : ExtendedMantissa) (x : ℚ) : Prop :=
  ∃ rest : ℚ, 0 ≤ rest ∧ rest < 1 / 2 ∧ (em.stickyBit ↔ rest ≠ 0) ∧
    x = em.mantissa + (if em.roundBit then 1 / 2 else 0) + rest

variable {em : ExtendedMantissa} {x : ℚ}

theorem Extends.bounds (h : Extends em x) : (em.mantissa : ℚ) ≤ x ∧ x < em.mantissa + 1 := by
  obtain ⟨rest, hrest, hlt, -, rfl⟩ := h
  cases em.roundBit
  · exact ⟨by simpa using hrest, by simp; linarith⟩
  · exact ⟨by simp; linarith, by simp; linarith⟩

theorem Extends.significand_bounds {m : ℕ} {acc : Accuracy}
    (h : Extends (.ofMantissaAndAccuracy m acc) x) : (m : ℚ) ≤ x ∧ x < m + 1 := by
  have hmantissa : (ExtendedMantissa.ofMantissaAndAccuracy m acc).mantissa = m := by
    rcases acc with _ | _ | _ | _ <;> rfl
  simpa only [hmantissa] using h.bounds

theorem Extends.shiftRightOne (h : Extends em x) : Extends em.shiftRightOne (x / 2) := by
  obtain ⟨rest, hrest, hlt, hsticky, rfl⟩ := h
  have hmantissa : (em.mantissa : ℚ) = 2 * (em.mantissa / 2 : ℕ) + (em.mantissa % 2 : ℕ) := by
    exact_mod_cast (Nat.div_add_mod em.mantissa 2).symm
  rcases em with ⟨m, round, sticky⟩
  refine ⟨((if round then 1 / 2 else 0) + rest) / 2, ?_, ?_, ?_, ?_⟩
  · cases round
    · simp; linarith
    · simp; linarith
  · cases round
    · simp; linarith
    · simp; linarith
  · cases round
    · simpa [ExtendedMantissa.shiftRightOne] using hsticky
    · simp [ExtendedMantissa.shiftRightOne]
      linarith
  · simp only [ExtendedMantissa.shiftRightOne] at hmantissa ⊢
    rw [hmantissa]
    rcases Nat.mod_two_eq_zero_or_one m with hm | hm
    · simp [hm]; ring
    · simp [hm]; ring

theorem Extends.shiftRight (h : Extends em x) (k : ℕ) : Extends (em >>> k) (x / 2 ^ k) := by
  change Extends (k.repeat ExtendedMantissa.shiftRightOne em) _
  induction k with
  | zero => simpa [Nat.repeat] using h
  | succ k ih =>
      rw [pow_succ, ← div_div, Nat.repeat]
      exact ih.shiftRightOne

/-- The two bits tell on which side of a half the number is. -/
theorem Extends.isHalfEven (h : Extends em x) : IsHalfEven x em.roundedMantissa := by
  obtain ⟨rest, hrest, hlt, hsticky, rfl⟩ := h
  rcases em with ⟨m, round, sticky⟩
  cases round <;> cases sticky
  · obtain rfl : rest = 0 := by simpa using hsticky
    simpa [ExtendedMantissa.roundedMantissa, ExtendedMantissa.accuracy,
      Accuracy.roundToNearestEven] using IsHalfEven.natCast m
  · refine .of_lt ?_
    simp only [ExtendedMantissa.roundedMantissa, ExtendedMantissa.accuracy,
      Accuracy.roundToNearestEven]
    rw [abs_lt]
    simp
    constructor <;> linarith
  · obtain rfl : rest = 0 := by simpa using hsticky
    simp only [ExtendedMantissa.roundedMantissa, ExtendedMantissa.accuracy,
      Accuracy.roundToNearestEven]
    rcases Nat.mod_two_eq_zero_or_one m with hm | hm
    · constructor
      · simp [hm]
      · intro _
        exact Nat.even_iff.mpr (by omega)
    · constructor
      · simp [hm]; norm_num [abs_le]
      · intro _
        exact Nat.even_iff.mpr (by omega)
  · have hsome : rest ≠ 0 := by simpa using hsticky
    have hpos : 0 < rest := lt_of_le_of_ne hrest hsome.symm
    refine .of_lt ?_
    simp only [ExtendedMantissa.roundedMantissa, ExtendedMantissa.accuracy,
      Accuracy.roundToNearestEven]
    rw [abs_lt]
    simp
    constructor <;> linarith

theorem extends_exact (m : ℕ) : Extends (.ofMantissaAndAccuracy m .exact) m :=
  ⟨0, le_rfl, by norm_num, by simp [ExtendedMantissa.ofMantissaAndAccuracy],
    by simp [ExtendedMantissa.ofMantissaAndAccuracy]⟩

/-- The remainder tells what stands behind the integral part of a quotient. -/
theorem extends_quotient (m : ℕ) {n : ℕ} (hn : 0 < n) :
    Extends (.ofMantissaAndAccuracy (m / n) (accuracyOfFraction (m % n) n)) (m / n) := by
  have hn' : (0 : ℚ) < n := by exact_mod_cast hn
  have hdivision : (m / n : ℚ) = (m / n : ℕ) + (m % n : ℕ) / n := by
    rw [eq_comm, ← eq_sub_iff_add_eq', div_eq_iff hn'.ne', sub_mul, div_mul_cancel₀ _ hn'.ne',
      eq_sub_iff_add_eq']
    exact_mod_cast Nat.div_add_mod' m n
  have hlt : ((m % n : ℕ) : ℚ) < n := by exact_mod_cast Nat.mod_lt m hn
  rw [hdivision]
  generalize m / n = q
  generalize m % n = r at *
  rw [accuracyOfFraction]
  split
  · next hr => simpa [hr] using extends_exact q
  · next hr =>
    have hr' : (0 : ℚ) < r := by exact_mod_cast Nat.pos_of_ne_zero hr
    rcases Nat.lt_trichotomy (2 * r) n with hhalf | hhalf | hhalf
    · have hhalf' : (2 * r : ℚ) < n := by exact_mod_cast hhalf
      rw [Nat.compare_eq_lt.mpr hhalf]
      refine ⟨r / n, by positivity, ?_, ?_, ?_⟩
      · rw [div_lt_iff₀ hn']
        linarith
      · simp [ExtendedMantissa.ofMantissaAndAccuracy, hr, hn.ne']
      · simp [ExtendedMantissa.ofMantissaAndAccuracy]
    · have hhalf' : (2 * r : ℚ) = n := by exact_mod_cast hhalf
      rw [Nat.compare_eq_eq.mpr hhalf]
      refine ⟨0, le_rfl, by norm_num, by simp [ExtendedMantissa.ofMantissaAndAccuracy], ?_⟩
      have hr : (r / n : ℚ) = 1 / 2 := by
        rw [div_eq_iff hn'.ne']
        linarith
      simp [ExtendedMantissa.ofMantissaAndAccuracy, hr]
    · have hhalf' : (n : ℚ) < 2 * r := by exact_mod_cast hhalf
      have hr : (1 / 2 : ℚ) < r / n := by
        rw [lt_div_iff₀ hn']
        linarith
      have hone : (r / n : ℚ) < 1 := (div_lt_one hn').mpr hlt
      rw [Nat.compare_eq_gt.mpr hhalf]
      refine ⟨r / n - 1 / 2, by linarith, by linarith, ?_, ?_⟩
      · simpa [ExtendedMantissa.ofMantissaAndAccuracy, sub_eq_zero] using hr.ne'
      · simp [ExtendedMantissa.ofMantissaAndAccuracy]

/-! ## The last place -/

variable {num den : ℕ}

theorem lastPlace_unique (hnum : 0 < num) (hden : 0 < den) {q : ℤ} (hleast : -1074 ≤ q)
    (hhigh : (num / den : ℚ) < 2 ^ 53 * 2 ^ q)
    (hlow : -1074 < q → 2 ^ 52 * 2 ^ q ≤ (num / den : ℚ)) : lastPlace num den = q := by
  obtain ⟨hleast', hhigh', hlow'⟩ := lastPlace_bounds hnum hden
  -- One place more would leave a bit less.
  have hnot {r t : ℤ} (h : r < t) (hhigh : (num / den : ℚ) < 2 ^ 53 * 2 ^ r)
      (hlow : 2 ^ 52 * 2 ^ t ≤ (num / den : ℚ)) : False := by
    have hmono : (2 : ℚ) ^ (r + 1) ≤ 2 ^ t := zpow_le_zpow_right₀ one_le_two h
    rw [zpow_add_one₀ two_ne_zero] at hmono
    linarith
  rcases Int.lt_trichotomy (lastPlace num den) q with hlt | heq | hgt
  · exact (hnot hlt hhigh' (hlow (by omega))).elim
  · exact heq
  · exact (hnot hgt hhigh (hlow' (by omega))).elim

/-- A number depends on the value of the fraction alone. -/
theorem nearest_congr {num' den' : ℕ} (hden : 0 < den) (hden' : 0 < den')
    (h : (num / den : ℚ) = num' / den') (negative : Bool) :
    nearest negative num den = nearest negative num' den' := by
  have hcast : (0 : ℚ) < den := by exact_mod_cast hden
  have hcast' : (0 : ℚ) < den' := by exact_mod_cast hden'
  rcases Nat.eq_zero_or_pos num with rfl | hnum
  · have hzero : num' = 0 := by simpa [hcast'.ne', eq_comm] using h
    rw [nearest, if_pos rfl, nearest, if_pos hzero]
  · have hpos : (0 : ℚ) < num / den := by positivity
    have hnum' : 0 < num' := num_pos_of_quotient_pos (h ▸ hpos)
    obtain ⟨hleast, hhigh, hlow⟩ := lastPlace_bounds hnum' hden'
    rw [← h] at hhigh hlow
    have hplace := lastPlace_unique hnum hden hleast hhigh hlow
    have hrounded := roundedSignificand_isHalfEven num hden (lastPlace num' den')
    rw [h] at hrounded
    have hsame := hrounded.unique (roundedSignificand_isHalfEven num' hden' _)
    rw [nearest, if_neg hnum.ne', nearest, if_neg hnum'.ne']
    dsimp only
    rw [hplace, hsame]

/-! ## Packed numbers -/

def signOf (negative : Bool) : Sign := if negative then .negative else .positive

theorem sign_eq (x : Float) : sign x = signOf (isNegative x) := rfl

theorem signOf_mul (a b : Bool) : signOf a * signOf b = signOf (a != b) := by
  cases a <;> cases b <;> rfl

theorem signOf_div (a b : Bool) : signOf a / signOf b = signOf (a != b) := by
  cases a <;> cases b <;> rfl

theorem eq_of_pack {u : UnpackedFloat} {negative : Bool} {e : BitVec 11} {m : BitVec 52}
    (h : UnpackedFloat.pack .binary64 u = packComponents .binary64 (signOf negative) e m) :
    Float.ofModel (.pack u) = ofMagnitudeBits negative (e.toNat * 2 ^ 52 + m.toNat) := by
  have hbits : (Float.ofModel (.pack u)).toBits.toNat =
      (UnpackedFloat.pack Format.binary64 u).toNat := rfl
  have he := e.isLt
  have hm := m.isLt
  have hnegative : isNegative (.ofModel (.pack u)) = negative := by
    rw [isNegative, hbits, h, packComponents, toNat_append, toNat_append, Nat.one_shiftLeft]
    cases negative
    · simp [signOf, Sign.toBitVec]
      omega
    · simp [signOf, Sign.toBitVec]
      omega
  rw [← ofMagnitudeBits_magnitudeBits (.ofModel (.pack u)), hnegative, magnitudeBits_pack h]

theorem pack_zero (negative : Bool) :
    Float.ofModel (.pack (.zero (signOf negative))) = zero negative :=
  eq_of_pack (e := 0) (m := 0) rfl

theorem pack_infinity (negative : Bool) :
    Float.ofModel (.pack (.infinity (signOf negative))) = infinity negative :=
  eq_of_pack (e := -1#11) (m := 0) rfl

/-- Parts with an exponent that is too large make infinity. -/
theorem pack_finite (negative : Bool) {m : ℕ} {q : ℤ} (hpos : 0 < m) (hlt : m < 2 ^ 53)
    (hleast : -1074 ≤ q) (hfull : -1074 < q → 2 ^ 52 ≤ m) :
    Float.ofModel (.pack (.finite (signOf negative) m q hpos)) =
      ofMagnitudeBits negative
        (min ((q - leastExponent).toNat * 2 ^ fractionBits + m) infinityBits) := by
  simp only [leastExponent, fractionBits, infinityBits, Nat.shiftLeft_eq]
  by_cases hlarge : 971 < q
  · have hpack : UnpackedFloat.pack .binary64 (.finite (signOf negative) m q hpos) =
        packComponents .binary64 (signOf negative) (-1#11) 0 := by
      have hbias : (Format.binary64.exponentBias : ℤ) + (52 : ℕ) = 1075 := rfl
      unfold UnpackedFloat.pack
      simp only [add_assoc, hbias]
      rw [if_pos (by omega)]
      rfl
    have hfull := hfull (by omega)
    rw [eq_of_pack hpack, Nat.min_eq_right (by omega)]
    rfl
  · by_cases hnormal : 2 ^ 52 ≤ m
    · obtain ⟨k, hk⟩ := Int.eq_ofNat_of_zero_le (show 0 ≤ q + 1075 by omega)
      obtain rfl : q = k - 1075 := by omega
      have hlog : m.log2 = 52 := (Nat.log2_eq_iff hpos.ne').mpr ⟨hnormal, hlt⟩
      rw [eq_of_pack (pack_of_log2_eq _ hpos hlog (by omega)), BitVec.toNat_ofNat,
        BitVec.toNat_ofNat]
      congr 1
      omega
    · obtain rfl : q = -1074 := by omega
      rw [eq_of_pack (pack_subnormal _ hpos (by omega)), BitVec.toNat_ofNat]
      congr 1
      simp
      omega

/-! ## Rounding -/

theorem shiftToTargetExponent_of_fits {m : ℕ} {q : ℤ} (hlt : m < 2 ^ 53) (hleast : -1074 ≤ q) :
    shiftToTargetExponent .binary64 m q .exact = (⟨m, false, false⟩, q) := by
  have hlog : m.log2 ≤ 52 := by
    rcases Nat.eq_zero_or_pos m with rfl | hpos
    · decide
    · exact Nat.le_of_lt_succ ((Nat.log2_lt hpos.ne').mpr hlt)
  have hshift : (max ((m.log2 : ℤ) + 1 + q - 53) (-1074) - q).toNat = 0 := by omega
  simp only [shiftToTargetExponent, totalExponent, targetExponent_binary64, shiftToExponent, hshift]
  simp [ExtendedMantissa.ofMantissaAndAccuracy]
  rfl

/-- A rounded significand is packed with its exponent, also where it has been rounded up to the next
power of two. -/
theorem pack_rounded (negative : Bool) {m r : ℕ} {e q : ℤ} {acc : Accuracy} {em : ExtendedMantissa}
    (hshift : shiftToTargetExponent .binary64 m e acc = (em, q)) (hr : em.roundedMantissa = r)
    (hle : r ≤ 2 ^ 53) (hleast : -1074 ≤ q) (hfull : -1074 < q → 2 ^ 52 ≤ r) :
    Float.ofModel (.pack (roundWithAccuracy .binary64 (signOf negative) m e acc)) =
      ofMagnitudeBits negative
        (min ((q - leastExponent).toNat * 2 ^ fractionBits + r) infinityBits) := by
  simp only [roundWithAccuracy, hshift, hr]
  rcases Nat.lt_or_eq_of_le hle with hlt | rfl
  · simp only [shiftToTargetExponent_of_fits hlt hleast]
    split
    · next hzero =>
      obtain rfl : q = -1074 := by omega
      rw [pack_zero, hzero]
      rfl
    · exact pack_finite negative _ hlt hleast hfull
  · simp only [shiftToTargetExponent_two_pow hleast]
    rw [dif_neg (by decide), pack_finite negative _ (by decide) (by omega) (fun _ => le_rfl),
      bits_carry hleast]

/-- The leading bit of the significand gives the last place. -/
theorem lastPlace_of_bounds (hnum : 0 < num) (hden : 0 < den) {m : ℕ} {e q : ℤ} {x : ℚ}
    (hlow : (m : ℚ) ≤ x) (hhigh : x < m + 1) (hvalue : (num / den : ℚ) = x * 2 ^ e) (hle : e ≤ q)
    (hq : q = max ((m.log2 : ℤ) + e - 52) (-1074)) : lastPlace num den = q := by
  have hplace : (0 : ℚ) < 2 ^ e := zpow_pos two_pos e
  refine lastPlace_unique hnum hden (by omega) ?_ fun hmore => ?_
  · have hm : (m : ℚ) + 1 ≤ 2 ^ (m.log2 + 1) := by exact_mod_cast Nat.lt_log2_self
    calc (num / den : ℚ) = x * 2 ^ e := hvalue
      _ < 2 ^ (m.log2 + 1) * 2 ^ e := mul_lt_mul_of_pos_right (hhigh.trans_le hm) hplace
      _ ≤ 2 ^ 53 * 2 ^ q := by
        rw [two_pow_mul_zpow, two_pow_mul_zpow]
        exact zpow_le_zpow_right₀ one_le_two (by omega)
  · have hpos : m ≠ 0 := by
      rintro rfl
      rw [Nat.log2_zero] at hq
      omega
    have hm : (2 : ℚ) ^ m.log2 ≤ m := by exact_mod_cast Nat.log2_self_le hpos
    calc (2 : ℚ) ^ 52 * 2 ^ q = 2 ^ m.log2 * 2 ^ e := by
          rw [two_pow_mul_zpow, two_pow_mul_zpow]
          congr 1
          omega
      _ ≤ x * 2 ^ e := mul_le_mul_of_nonneg_right (hm.trans hlow) hplace.le
      _ = num / den := hvalue.symm

/-- Rounding gives the number nearest to what the significand stands for, unless there are bits
missing in front of the last place. -/
theorem pack_roundWithAccuracy (negative : Bool) {m : ℕ} {e : ℤ} {acc : Accuracy} {x : ℚ}
    (hx : Extends (.ofMantissaAndAccuracy m acc) x) (he : e ≤ max ((m.log2 : ℤ) + e - 52) (-1074))
    (hnum : 0 < num) (hden : 0 < den) (hvalue : (num / den : ℚ) = x * 2 ^ e) :
    Float.ofModel (.pack (roundWithAccuracy .binary64 (signOf negative) m e acc)) =
      nearest negative num den := by
  obtain ⟨q, hq⟩ : ∃ q, q = max ((m.log2 : ℤ) + e - 52) (-1074) := ⟨_, rfl⟩
  obtain ⟨k, hk⟩ := Int.le.dest (hq ▸ he)
  have hshift : shiftToTargetExponent .binary64 m e acc =
      (ExtendedMantissa.ofMantissaAndAccuracy m acc >>> k, q) := by
    have hamount : (max ((m.log2 : ℤ) + 1 + e - 53) (-1074) - e).toNat = k := by omega
    simp only [shiftToTargetExponent, totalExponent, targetExponent_binary64, shiftToExponent,
      hamount, hk]
  have hbounds := hx.significand_bounds
  have hplace : lastPlace num den = q :=
    lastPlace_of_bounds hnum hden hbounds.1 hbounds.2 hvalue (by omega) hq
  have hrounded : (ExtendedMantissa.ofMantissaAndAccuracy m acc >>> k).roundedMantissa =
      roundedSignificand num den q := by
    have hunits : (num / den / 2 ^ q : ℚ) = x / 2 ^ k := by
      have hpos : (2 : ℚ) ^ e ≠ 0 := zpow_ne_zero e two_ne_zero
      rw [hvalue, ← hk, zpow_add₀ two_ne_zero, zpow_natCast, mul_comm (2 ^ e : ℚ),
        mul_div_mul_right _ _ hpos]
    refine (hx.shiftRight k).isHalfEven.unique ?_
    rw [← hunits]
    exact roundedSignificand_isHalfEven num hden q
  obtain ⟨hcarry, hfull⟩ := roundedSignificand_bounds hnum hden
  obtain ⟨hleast, -, -⟩ := lastPlace_bounds hnum hden
  rw [hplace] at hcarry hfull hleast
  rw [pack_rounded negative hshift hrounded hcarry hleast hfull]
  simp only [nearest, hnum.ne', if_false, Nat.shiftLeft_eq, hplace]

end ReversePolish.Binary64
