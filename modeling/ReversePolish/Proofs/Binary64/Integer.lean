import ReversePolish.Proofs.Binary64.Closest
import ReversePolish.Proofs.Binary64.Nearest
import ReversePolish.Proofs.Binary64.Order

/-! # Integers among the numbers

Rounding an integer takes it past no number: what is not above the integer is not above the number
that it is rounded to, and what is not below it is not below that number. The integers that become
infinite are those beyond the range. -/

namespace ReversePolish.Binary64

variable {n m : ℕ}

/-! ## Leading bits -/

/-- What stands behind the leading bits can set the last one of them and nothing else. -/
theorem exists_leadingBits (n : ℕ) :
    ∃ l, leadingBits n = l * 2 ^ (n.log2 + 1 - limbBits) ∧
      l / 2 = n / 2 ^ (n.log2 + 1 - limbBits) / 2 := by
  simp only [leadingBits, Nat.shiftLeft_eq, Nat.shiftRight_eq_div_pow]
  refine ⟨_, rfl, ?_⟩
  split
  · rw [Nat.or_div_two]
    exact Nat.or_zero _
  · rfl

theorem leadingBits_of_log2_lt (h : n.log2 < limbBits) : leadingBits n = n := by
  refine leadingBits_of_dvd ?_
  rw [Nat.sub_eq_zero_of_le h, pow_zero]
  exact one_dvd n

theorem leadingBits_mul_two_pow (hm : m < 2 ^ 64) (k : ℕ) :
    leadingBits (m * 2 ^ k) = m * 2 ^ k := by
  refine leadingBits_of_dvd ((Nat.pow_dvd_pow 2 ?_).trans (Nat.dvd_mul_left _ m))
  rcases Nat.eq_zero_or_pos m with rfl | hpos
  · simp [limbBits]
  · have hne : m * 2 ^ k ≠ 0 := (Nat.mul_pos hpos (Nat.two_pow_pos k)).ne'
    have hlt : m * 2 ^ k < 2 ^ (64 + k) := by
      rw [pow_add]
      exact Nat.mul_lt_mul_of_pos_right hm (Nat.two_pow_pos k)
    have hlog := (Nat.log2_lt hne).mpr hlt
    rw [limbBits]
    omega

/-- Beside a number of fewer bits the leading bits do as well as all. -/
theorem leadingBits_lt_iff (hm : m < 2 ^ 63) (q : ℤ) :
    (leadingBits n : ℚ) < m * 2 ^ q ↔ (n : ℚ) < m * 2 ^ q := by
  rcases lt_or_ge n.log2 limbBits with hshort | hlong
  · rw [leadingBits_of_log2_lt hshort]
  obtain ⟨l, hl, hhalf⟩ := exists_leadingBits n
  rw [limbBits] at hlong hl hhalf
  obtain ⟨k, hk⟩ : ∃ k, k = n.log2 + 1 - 64 := ⟨_, rfl⟩
  rw [← hk] at hl hhalf
  have hn : n ≠ 0 := by
    rintro rfl
    simp at hlong
  have hfull : 2 ^ 63 ≤ n / 2 ^ k := by
    rw [Nat.le_div_iff_mul_le (Nat.two_pow_pos k), ← pow_add, show 63 + k = n.log2 by omega]
    exact Nat.log2_self_le hn
  rcases le_or_gt q k with hle | hgt
  · -- Then it is below the first of the leading bits.
    have hbelow (a : ℕ) (ha : 2 ^ 63 ≤ a) : (m : ℚ) * 2 ^ q ≤ (a * 2 ^ k : ℕ) := by
      push_cast
      refine mul_le_mul (by exact_mod_cast hm.le.trans ha) ?_ (zpow_pos two_pos q).le
        (Nat.cast_nonneg a)
      exact (zpow_le_zpow_right₀ one_le_two hle).trans_eq (zpow_natCast 2 k)
    have hleading : (m : ℚ) * 2 ^ q ≤ leadingBits n := by
      rw [hl]
      exact hbelow l (by omega)
    have hall : (m : ℚ) * 2 ^ q ≤ n := (hbelow _ hfull).trans (by exact_mod_cast Nat.div_mul_le_self n _)
    exact iff_of_false hleading.not_gt hall.not_gt
  · -- Then it is an even number of last leading bits.
    obtain ⟨j, hj⟩ : ∃ j, (m : ℚ) * 2 ^ q = (2 * j * 2 ^ k : ℕ) := by
      obtain ⟨d, rfl⟩ := Int.le.dest hgt
      refine ⟨m * 2 ^ d, ?_⟩
      rw [zpow_add₀ two_ne_zero, zpow_add₀ two_ne_zero, zpow_natCast, zpow_natCast, zpow_one]
      push_cast
      ring
    rw [hj, hl, Nat.cast_lt, Nat.cast_lt, Nat.mul_lt_mul_right (Nat.two_pow_pos k),
      ← Nat.div_lt_iff_lt_mul (Nat.two_pow_pos k)]
    omega

theorem leadingBits_of_eq (hm : m < 2 ^ 63) {q : ℤ} (h : (n : ℚ) = m * 2 ^ q) :
    leadingBits n = n := by
  obtain ⟨k, rfl | rfl⟩ := q.eq_nat_or_neg
  · rw [zpow_natCast] at h
    have hn : n = m * 2 ^ k := by exact_mod_cast h
    rw [hn]
    exact leadingBits_mul_two_pow (hm.trans (by decide)) k
  · have hle : (n : ℚ) ≤ m := by
      rw [h]
      exact mul_le_of_le_one_right (Nat.cast_nonneg m) (zpow_le_one_of_nonpos₀ one_le_two (by omega))
    have hle : n ≤ m := by exact_mod_cast hle
    exact leadingBits_of_lt (hle.trans_lt (hm.trans (by decide)))

theorem leadingBits_le (hm : m < 2 ^ 63) {q : ℤ} (h : (n : ℚ) ≤ m * 2 ^ q) :
    (leadingBits n : ℚ) ≤ m * 2 ^ q := by
  rcases h.lt_or_eq with hlt | heq
  · exact ((leadingBits_lt_iff hm q).mpr hlt).le
  · rw [leadingBits_of_eq hm heq, heq]

theorem le_leadingBits (hm : m < 2 ^ 63) {q : ℤ} (h : m * 2 ^ q ≤ (n : ℚ)) :
    m * 2 ^ q ≤ (leadingBits n : ℚ) :=
  not_lt.mp (mt (leadingBits_lt_iff hm q).mp h.not_gt)

/-! ## Rounding and order -/

section Nearest

variable {num den : ℕ} (negative : Bool) {x : Float}

theorem isFinite_zero : isFinite (zero negative) := by
  rw [isFinite, zero, magnitudeBits_ofMagnitudeBits (Nat.zero_le _)]
  decide

theorem not_isFinite_infinity : ¬ isFinite (infinity negative) := by
  rw [isFinite, infinity, magnitudeBits_ofMagnitudeBits le_rfl]
  decide

theorem magnitude_zero : magnitude (zero negative) = 0 :=
  magnitude_of_eq_zero (magnitudeBits_ofMagnitudeBits (Nat.zero_le _))

theorem magnitude_infinity : magnitude (infinity negative) = ⊤ :=
  magnitude_of_eq (magnitudeBits_ofMagnitudeBits le_rfl)

theorem nearest_of_eq_zero (h : num = 0) : nearest negative num den = zero negative := if_pos h

/-- The sign of a rounded fraction is the one that it is given, and it is never NaN. -/
theorem exists_nearest_eq (num den : ℕ) :
    ∃ bits ≤ infinityBits, nearest negative num den = ofMagnitudeBits negative bits := by
  rw [nearest]
  split
  · exact ⟨0, Nat.zero_le _, rfl⟩
  · exact ⟨_, Nat.min_le_right _ _, rfl⟩

theorem isNegative_of_nearest (num den : ℕ) :
    isNegative (nearest negative num den) = negative := by
  obtain ⟨bits, hle, heq⟩ := exists_nearest_eq negative num den
  rw [heq, isNegative_ofMagnitudeBits hle]

theorem not_isNaN_nearest (num den : ℕ) : ¬ (nearest negative num den).isNaN := by
  obtain ⟨bits, hle, heq⟩ := exists_nearest_eq negative num den
  rw [heq, isNaN_iff, magnitudeBits_ofMagnitudeBits hle]
  exact hle.not_gt

variable (hden : 0 < den)

include hden

theorem isFinite_nearest_iff :
    isFinite (nearest negative num den) ↔ (num / den : ℚ) < overflowBound := by
  rcases Nat.eq_zero_or_pos num with rfl | hnum
  · rw [nearest_of_eq_zero negative rfl, Nat.cast_zero, zero_div, overflowBound]
    exact iff_of_true (isFinite_zero negative)
      (mul_pos (by norm_num) (zpow_pos two_pos 971))
  · rcases lt_or_ge (num / den : ℚ) overflowBound with hlt | hge
    · exact iff_of_true (isFinite_nearest hnum hden hlt negative) hlt
    · rw [nearest_of_ge hnum hden hge]
      exact iff_of_false (not_isFinite_infinity negative) hge.not_gt

/-- A number up to the fraction is up to the number that the fraction is rounded to. -/
theorem le_magnitude_nearest (hx : isFinite x) (h : absValue x ≤ (num / den : ℚ)) :
    magnitude x ≤ magnitude (nearest negative num den) := by
  rw [magnitude_of_isFinite hx]
  rcases Nat.eq_zero_or_pos num with rfl | hnum
  · rw [nearest_of_eq_zero negative rfl, magnitude_zero]
    rw [Nat.cast_zero, zero_div] at h
    exact_mod_cast h
  rcases lt_or_ge (num / den : ℚ) overflowBound with hlt | hge
  · rw [magnitude_of_isFinite (isFinite_nearest hnum hden hlt negative)]
    have hclosest := nearest_closest hnum hden hlt negative hx
    rw [abs_of_nonpos (sub_nonpos.mpr h)] at hclosest
    have hle := (abs_le.mp hclosest).1
    have hle : absValue x ≤ absValue (nearest negative num den) := by linarith
    exact_mod_cast hle
  · rw [nearest_of_ge hnum hden hge, magnitude_infinity]
    exact le_top

/-- A number from the fraction on is from that number on. -/
theorem magnitude_nearest_le (hx : isFinite x) (h : (num / den : ℚ) ≤ absValue x) :
    magnitude (nearest negative num den) ≤ magnitude x := by
  have hlt : (num / den : ℚ) < overflowBound := h.trans_lt (absValue_lt_overflowBound hx)
  rw [magnitude_of_isFinite hx]
  rcases Nat.eq_zero_or_pos num with rfl | hnum
  · rw [nearest_of_eq_zero negative rfl, magnitude_zero]
    rw [Nat.cast_zero, zero_div] at h
    exact_mod_cast h
  rw [magnitude_of_isFinite (isFinite_nearest hnum hden hlt negative)]
  have hclosest := nearest_closest hnum hden hlt negative hx
  rw [abs_of_nonneg (sub_nonneg.mpr h)] at hclosest
  have hle := (abs_le.mp hclosest).2
  have hle : absValue (nearest negative num den) ≤ absValue x := by linarith
  exact_mod_cast hle

end Nearest

/-! ## Integers -/

theorem ofInt_signed (hn : 0 < n) (negative : Bool) :
    ofInt (if negative then -n else n) = nearest negative (leadingBits n) 1 := by
  cases negative with
  | true =>
      have hsign : decide (-(n : ℤ) < 0) = true := decide_eq_true (by omega)
      rw [if_pos rfl, ofInt, hsign, Int.natAbs_neg, Int.natAbs_natCast]
  | false =>
      have hsign : decide ((n : ℤ) < 0) = false := decide_eq_false (by omega)
      rw [if_neg Bool.false_ne_true, ofInt, hsign, Int.natAbs_natCast]

variable {x : Float} {i : ℤ}

theorem not_isNaN_ofInt (i : ℤ) : ¬ (ofInt i).isNaN :=
  not_isNaN_nearest _ _ _

theorem isNegative_ofInt (i : ℤ) : isNegative (ofInt i) = decide (i < 0) :=
  isNegative_of_nearest _ _ _

theorem le_magnitude_ofInt (h : magnitude x ≤ ((i.natAbs : ℝ) : EReal)) :
    magnitude x ≤ magnitude (ofInt i) := by
  by_cases hfinite : isFinite x
  · rw [magnitude_of_isFinite hfinite] at h
    have h : absValue x ≤ (i.natAbs : ℚ) := by exact_mod_cast h
    refine le_magnitude_nearest _ one_pos hfinite ?_
    rw [Nat.cast_one, div_one]
    exact le_leadingBits ((isCanonical hfinite).lt.trans (by decide)) h
  · rw [magnitude, if_neg hfinite, top_le_iff] at h
    exact absurd h (EReal.coe_ne_top _)

theorem magnitude_ofInt_le (h : ((i.natAbs : ℝ) : EReal) ≤ magnitude x) :
    magnitude (ofInt i) ≤ magnitude x := by
  by_cases hfinite : isFinite x
  · rw [magnitude_of_isFinite hfinite] at h
    have h : (i.natAbs : ℚ) ≤ absValue x := by exact_mod_cast h
    refine magnitude_nearest_le _ one_pos hfinite ?_
    rw [Nat.cast_one, div_one]
    exact leadingBits_le ((isCanonical hfinite).lt.trans (by decide)) h
  · rw [magnitude.eq_def x, if_neg hfinite]
    exact le_top

theorem two_pow_le_magnitude_ofInt {k : ℕ} (hk : k ≤ 52) (h : 2 ^ k ≤ i.natAbs) :
    ((2 ^ k : ℝ) : EReal) ≤ magnitude (ofInt i) := by
  have hparts : IsCanonical (2 ^ 52) ((k : ℤ) - 52) :=
    ⟨by decide, by omega, by omega, fun _ => le_rfl⟩
  have hvalue : absValue (ofParts false (2 ^ 52) ((k : ℤ) - 52)) = 2 ^ k := by
    rw [hparts.absValue_ofParts, zpow_sub₀ two_ne_zero, zpow_natCast]
    norm_num
    ring
  have hmagnitude : magnitude (ofParts false (2 ^ 52) ((k : ℤ) - 52)) = ((2 ^ k : ℝ) : EReal) := by
    rw [magnitude_of_isFinite (hparts.isFinite_ofParts false), hvalue]
    norm_cast
  rw [← hmagnitude]
  refine le_magnitude_ofInt ?_
  rw [hmagnitude]
  exact_mod_cast h

/-- Rounding takes no integer other than zero to zero. -/
theorem value_ofInt_eq_zero_iff : value (ofInt i) = 0 ↔ i = 0 := by
  rw [value_eq_zero_iff (not_isNaN_ofInt i)]
  constructor
  · intro hzero
    by_contra hne
    have hle := two_pow_le_magnitude_ofInt (Nat.zero_le 52) (Int.natAbs_pos.mpr hne)
    rw [magnitude_of_eq_zero hzero, pow_zero] at hle
    exact absurd (EReal.coe_le_coe_iff.mp hle) (by norm_num)
  · rintro rfl
    decide

theorem cast_of_nonneg (hi : 0 ≤ i) : ((i : ℝ) : EReal) = ((i.natAbs : ℝ) : EReal) := by
  rw [Nat.cast_natAbs, abs_of_nonneg hi]

theorem cast_of_neg (hi : i < 0) : ((i : ℝ) : EReal) = -((i.natAbs : ℝ) : EReal) := by
  rw [Nat.cast_natAbs, abs_of_neg hi]
  push_cast
  rw [neg_neg]

theorem value_ofInt_of_nonneg (hi : 0 ≤ i) : value (ofInt i) = magnitude (ofInt i) := by
  refine value_of_not_isNegative ?_
  rw [isNegative_ofInt, decide_eq_true_eq]
  exact hi.not_gt

theorem value_ofInt_of_neg (hi : i < 0) : value (ofInt i) = -magnitude (ofInt i) := by
  refine value_of_isNegative ?_
  rw [isNegative_ofInt]
  exact decide_eq_true hi

theorem value_nonpos (hx : ¬ x.isNaN) (h : isNegative x) : value x ≤ 0 := by
  rw [value_of_isNegative h, ← neg_zero, EReal.neg_le_neg_iff]
  exact magnitude_nonneg hx

/-- A number up to the integer is up to the number that the integer is rounded to. -/
theorem le_value_ofInt (hx : ¬ x.isNaN) (h : value x ≤ ((i : ℝ) : EReal)) :
    value x ≤ value (ofInt i) := by
  rcases le_or_gt 0 i with hi | hi
  · rw [value_ofInt_of_nonneg hi]
    by_cases hnegative : isNegative x
    · exact (value_nonpos hx hnegative).trans (magnitude_nonneg (not_isNaN_ofInt i))
    · rw [value_of_not_isNegative hnegative] at h ⊢
      rw [cast_of_nonneg hi] at h
      exact le_magnitude_ofInt h
  · have hnegative : isNegative x := by
      by_contra hpositive
      rw [value_of_not_isNegative hpositive] at h
      have hle : (0 : EReal) ≤ ((i : ℝ) : EReal) := (magnitude_nonneg hx).trans h
      have hle : 0 ≤ i := by exact_mod_cast hle
      omega
    rw [value_ofInt_of_neg hi]
    rw [value_of_isNegative hnegative] at h ⊢
    rw [cast_of_neg hi, EReal.neg_le_neg_iff] at h
    exact EReal.neg_le_neg_iff.mpr (magnitude_ofInt_le h)

/-- A number from the integer on is from that number on. -/
theorem value_ofInt_le (hx : ¬ x.isNaN) (h : ((i : ℝ) : EReal) ≤ value x) :
    value (ofInt i) ≤ value x := by
  rcases le_or_gt 0 i with hi | hi
  · by_cases hnegative : isNegative x
    · have hle : ((i : ℝ) : EReal) ≤ 0 := h.trans (value_nonpos hx hnegative)
      have hle : i ≤ 0 := by exact_mod_cast hle
      obtain rfl : i = 0 := by omega
      rw [value_ofInt_eq_zero_iff.mpr rfl]
      exact_mod_cast h
    · rw [value_ofInt_of_nonneg hi]
      rw [value_of_not_isNegative hnegative] at h ⊢
      rw [cast_of_nonneg hi] at h
      exact magnitude_ofInt_le h
  · by_cases hnegative : isNegative x
    · rw [value_ofInt_of_neg hi]
      rw [value_of_isNegative hnegative] at h ⊢
      rw [cast_of_neg hi, EReal.neg_le_neg_iff] at h
      exact EReal.neg_le_neg_iff.mpr (le_magnitude_ofInt h)
    · rw [value_of_not_isNegative hnegative]
      refine (value_nonpos (not_isNaN_ofInt i) ?_).trans (magnitude_nonneg hx)
      rw [isNegative_ofInt]
      exact decide_eq_true hi

/-- An integer stays finite below the bound. -/
theorem isFinite_ofInt_iff (i : ℤ) : isFinite (ofInt i) ↔ (i.natAbs : ℚ) < overflowBound := by
  have hbound : overflowBound = (2 ^ 54 - 1 : ℕ) * 2 ^ (970 : ℤ) := by
    rw [overflowBound_eq, Nat.cast_mul, Nat.cast_pow, Nat.cast_ofNat, zpow_ofNat]
  rw [ofInt, isFinite_nearest_iff _ one_pos, Nat.cast_one, div_one, hbound]
  exact leadingBits_lt_iff (by decide) 970

/-- An integer that does not stay finite becomes infinite. -/
theorem magnitudeBits_ofInt (h : overflowBound ≤ (i.natAbs : ℚ)) :
    magnitudeBits (ofInt i) = infinityBits := by
  have hle : magnitudeBits (ofInt i) ≤ infinityBits :=
    not_lt.mp (mt isNaN_iff.mpr (not_isNaN_ofInt i))
  have hge : ¬ isFinite (ofInt i) := mt (isFinite_ofInt_iff i).mp h.not_gt
  exact hle.antisymm (not_lt.mp fun hlt => hge (decide_eq_true hlt))

end ReversePolish.Binary64
