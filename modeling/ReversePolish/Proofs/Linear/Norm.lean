import ReversePolish.Linear.Vector
import ReversePolish.Proofs.Binary64.SquareRoot

/-! # Lengths of vectors

The length comes from a sum of squares, which loses what is too small for a square and overflows
long before a component does. -/

namespace ReversePolish

namespace Binary64

variable {s x total : Float} {xs : List Float}

/-! ## Running sums -/

theorem magnitudeBits_add_eq_zero_iff (hs : IsUnsigned s) (hx : IsUnsigned x) :
    magnitudeBits (s + x) = 0 ↔ magnitudeBits s = 0 ∧ magnitudeBits x = 0 := by
  constructor
  · intro hzero
    by_cases hfinite : isFinite s ∧ isFinite x
    · have hle := (hs.isNearest_add hx hfinite.1 hfinite.2).magnitudeBits_eq_zero_iff.mp hzero
      constructor
      · by_contra hne
        linarith [least_le_absValue hfinite.1 hne, absValue_nonneg x]
      · by_contra hne
        linarith [least_le_absValue hfinite.2 hne, absValue_nonneg s]
    · rw [hs.add_eq_infinity hx (not_and_or.mp hfinite), magnitudeBits_infinity] at hzero
      exact absurd hzero (by decide)
  · rintro ⟨hs', hx'⟩
    rw [zero_add_of_not_isNegative hs' hx.not_isNegative, hx']

/-- Adding two numbers doubles the greater at most, and so does rounding. -/
theorem IsUnsigned.add_le (hs : IsUnsigned s) (hx : IsUnsigned x) {b : ℚ} (hsb : absValue s ≤ b)
    (hxb : absValue x ≤ b) (h : isFinite (s + x)) : absValue (s + x) ≤ 4 * b := by
  have hparts : isFinite s ∧ isFinite x := by
    by_contra hinfinite
    rw [hs.add_eq_infinity hx (not_and_or.mp hinfinite)] at h
    revert h
    decide
  have hle := (hs.isNearest_add hx hparts.1 hparts.2).absValue_le_two_mul h
  linarith

/-- What is known of numbers from zero on that are added up one after the other. -/
structure RunningSum (s : Float) (xs : List Float) (total : Float) : Prop where
  isUnsigned : IsUnsigned total
  eq_zero_iff : magnitudeBits total = 0 ↔ ∀ x ∈ s :: xs, magnitudeBits x = 0
  not_isFinite (h : ∃ x ∈ s :: xs, ¬ isFinite x) : ¬ isFinite total
  le {b : ℚ} (hb : ∀ x ∈ s :: xs, absValue x ≤ b) (h : isFinite total) :
    absValue total ≤ 4 ^ xs.length * b
  isFinite {b : ℚ} (hb : ∀ x ∈ s :: xs, absValue x ≤ b) (h : ∀ x ∈ s :: xs, isFinite x)
    (hlt : 4 ^ xs.length * b < overflowBound) : isFinite total

theorem RunningSum.nil (hs : IsUnsigned s) : RunningSum s [] s where
  isUnsigned := hs
  eq_zero_iff := by simp
  not_isFinite h := by simpa using h
  le hb _ := by simpa using hb
  isFinite _ h _ := by simpa using h

theorem RunningSum.cons (hs : IsUnsigned s) (hx : IsUnsigned x)
    (h : RunningSum (s + x) xs total) : RunningSum s (x :: xs) total where
  isUnsigned := h.isUnsigned
  eq_zero_iff := by
    rw [h.eq_zero_iff]
    simp only [List.forall_mem_cons, magnitudeBits_add_eq_zero_iff hs hx, and_assoc]
  not_isFinite hsome := by
    refine h.not_isFinite ?_
    simp only [List.exists_mem_cons_iff] at hsome ⊢
    rw [← or_assoc] at hsome
    refine hsome.imp_left fun hinfinite => ?_
    rw [hs.add_eq_infinity hx hinfinite]
    decide
  le {b} hb hfinite := by
    obtain ⟨hsb, hxb, hrest⟩ := by simpa only [List.forall_mem_cons] using hb
    have hsum : Binary64.isFinite (s + x) := by
      by_contra hinfinite
      exact h.not_isFinite ⟨_, List.mem_cons_self, hinfinite⟩ hfinite
    have hb' : ∀ y ∈ (s + x) :: xs, absValue y ≤ 4 * b :=
      List.forall_mem_cons.mpr ⟨hs.add_le hx hsb hxb hsum, fun y hy => by
        linarith [hrest y hy, absValue_nonneg y]⟩
    calc absValue total ≤ 4 ^ xs.length * (4 * b) := h.le hb' hfinite
      _ = 4 ^ (x :: xs).length * b := by
          rw [List.length_cons, pow_succ]
          ring
  isFinite {b} hb hfinite hlt := by
    obtain ⟨hsb, hxb, hrest⟩ := by simpa only [List.forall_mem_cons] using hb
    obtain ⟨hs', hx', hrest'⟩ := by simpa only [List.forall_mem_cons] using hfinite
    have hnonneg : 0 ≤ b := (absValue_nonneg s).trans hsb
    have hpow : (1 : ℚ) ≤ 4 ^ xs.length := one_le_pow₀ (by norm_num)
    rw [List.length_cons, pow_succ, mul_assoc] at hlt
    have hsum : Binary64.isFinite (s + x) := by
      refine (hs.isNearest_add hx hs' hx').isFinite_iff.mpr (lt_of_le_of_lt ?_ hlt)
      nlinarith
    have hb' : ∀ y ∈ (s + x) :: xs, absValue y ≤ 4 * b :=
      List.forall_mem_cons.mpr ⟨hs.add_le hx hsb hxb hsum, fun y hy => by linarith [hrest y hy]⟩
    exact h.isFinite hb' (List.forall_mem_cons.mpr ⟨hsum, hrest'⟩) hlt

/-- Numbers from zero on, added up from the left. -/
theorem runningSum_foldl (hs : IsUnsigned s) (hxs : ∀ x ∈ xs, IsUnsigned x) :
    RunningSum s xs (xs.foldl (· + ·) s) := by
  induction xs generalizing s with
  | nil => exact .nil hs
  | cons x xs ih =>
      obtain ⟨hx, hrest⟩ := List.forall_mem_cons.mp hxs
      exact .cons hs hx (ih (hs.add hx) hrest)

theorem isNearest_square (hx : isFinite x) : IsNearest false (absValue x ^ 2) (x * x) := by
  have hsquare := isNearest_mul hx hx
  rwa [bne_self_eq_false, ← sq] at hsquare

theorem beq_zero_iff (hx : ¬ x.isNaN) : x == 0 ↔ magnitudeBits x = 0 := by
  have hzero : value 0 = 0 := (value_eq_zero_iff (by decide)).mpr (by decide)
  rw [beq_iff hx (by decide), hzero, value_eq_zero_iff hx]

end Binary64

open Binary64

namespace RealVector

variable {n : ℕ} {v : RealVector n}

/-! ## Sums of squares -/

theorem dot_self (v : RealVector n) :
    v.dot v = (v.toList.map fun c => c * c).foldl (· + ·) (-0.0) := by
  have hsquares : (v.zipWith (· * ·) v).toList = v.toList.map fun c => c * c := by
    rw [Vector.toList_zipWith, List.zipWith_self]
  rw [dot, sum, hsquares]

/-- The empty sum that the squares are added to changes none of them. -/
theorem exists_runningSum (hn : 0 < n) (hv : ∀ c ∈ v.toList, isFinite c) :
    ∃ s xs, v.toList.map (fun c => c * c) = s :: xs ∧ xs.length + 1 = n ∧
      RunningSum s xs (v.dot v) := by
  have hsquares : ∀ x ∈ v.toList.map fun c => c * c, IsUnsigned x := by
    rw [List.forall_mem_map]
    exact fun c hc => (isNearest_square (hv c hc)).isUnsigned
  have hlength : (v.toList.map fun c => c * c).length = n := by
    rw [List.length_map, v.length_toList]
  rw [dot_self]
  generalize (v.toList.map fun c => c * c) = squares at hsquares hlength ⊢
  cases squares with
  | nil => exact absurd hlength hn.ne
  | cons s xs =>
      obtain ⟨hs, hxs⟩ := List.forall_mem_cons.mp hsquares
      have hstart : (-0.0 : Float) + s = s :=
        zero_add_of_not_isNegative (by decide +kernel) hs.not_isNegative
      rw [List.foldl_cons, hstart]
      exact ⟨s, xs, rfl, hlength, runningSum_foldl hs hxs⟩

theorem square_le (hv : ∀ c ∈ v.toList, isFinite c) {b : ℚ} (hb : ∀ c ∈ v.toList, absValue c ≤ b)
    {s : Float} {xs : List Float} (hlist : v.toList.map (fun c => c * c) = s :: xs)
    (hxs : ∀ x ∈ s :: xs, isFinite x) :
    ∀ x ∈ s :: xs, absValue x ≤ 2 * b ^ 2 := by
  rw [← hlist, List.forall_mem_map] at hxs ⊢
  intro c hc
  calc absValue (c * c) ≤ 2 * absValue c ^ 2 :=
        (isNearest_square (hv c hc)).absValue_le_two_mul (hxs c hc)
    _ ≤ 2 * b ^ 2 := by
        gcongr
        · exact absValue_nonneg c
        · exact hb c hc

theorem doubled_le {k : ℕ} (h : k + 1 = n) (b : ℚ) : 4 ^ k * (2 * b ^ 2) ≤ 4 ^ n * b ^ 2 := by
  have hterm : 0 ≤ 4 ^ k * b ^ 2 := mul_nonneg (pow_nonneg (by norm_num) k) (sq_nonneg b)
  rw [← h, pow_succ (4 : ℚ)]
  linarith

section Finite

variable (hn : 0 < n) (hv : ∀ c ∈ v.toList, isFinite c)

include hn hv

theorem isUnsigned_dot_self : IsUnsigned (v.dot v) := by
  obtain ⟨s, xs, -, -, hsum⟩ := exists_runningSum hn hv
  exact hsum.isUnsigned

/-- Squares up to half the least number are lost. -/
theorem dot_self_eq_zero_iff :
    magnitudeBits (v.dot v) = 0 ↔ ∀ c ∈ v.toList, absValue c ^ 2 ≤ 2 ^ (-1075 : ℤ) := by
  obtain ⟨s, xs, hlist, -, hsum⟩ := exists_runningSum hn hv
  rw [hsum.eq_zero_iff, ← hlist, List.forall_mem_map]
  exact forall₂_congr fun c hc => (isNearest_square (hv c hc)).magnitudeBits_eq_zero_iff

theorem not_isFinite_dot_self {c : Float} (hc : c ∈ v.toList)
    (hlarge : overflowBound ≤ absValue c ^ 2) : ¬ isFinite (v.dot v) := by
  obtain ⟨s, xs, hlist, -, hsum⟩ := exists_runningSum hn hv
  refine hsum.not_isFinite ⟨c * c, hlist ▸ List.mem_map_of_mem hc, ?_⟩
  rw [(isNearest_square (hv c hc)).isFinite_iff]
  exact hlarge.not_gt

section Bounded

variable {b : ℚ} (hb : ∀ c ∈ v.toList, absValue c ≤ b)

include hb

theorem dot_self_le (hfinite : isFinite (v.dot v)) : absValue (v.dot v) ≤ 4 ^ n * b ^ 2 := by
  obtain ⟨s, xs, hlist, hlength, hsum⟩ := exists_runningSum hn hv
  have hxs : ∀ x ∈ s :: xs, isFinite x := fun x hx => by
    by_contra hinfinite
    exact hsum.not_isFinite ⟨x, hx, hinfinite⟩ hfinite
  calc absValue (v.dot v) ≤ 4 ^ xs.length * (2 * b ^ 2) :=
        hsum.le (square_le hv hb hlist hxs) hfinite
    _ ≤ 4 ^ n * b ^ 2 := doubled_le hlength b

theorem isFinite_dot_self (hlt : 4 ^ n * b ^ 2 < overflowBound) : isFinite (v.dot v) := by
  obtain ⟨s, xs, hlist, hlength, hsum⟩ := exists_runningSum hn hv
  have hxs : ∀ x ∈ s :: xs, isFinite x := by
    rw [← hlist, List.forall_mem_map]
    intro c hc
    rw [(isNearest_square (hv c hc)).isFinite_iff]
    calc absValue c ^ 2 ≤ b ^ 2 := pow_le_pow_left₀ (absValue_nonneg c) (hb c hc) 2
      _ ≤ 4 ^ n * b ^ 2 := le_mul_of_one_le_left (sq_nonneg b) (one_le_pow₀ (by norm_num))
      _ < overflowBound := hlt
  exact hsum.isFinite (square_le hv hb hlist hxs) hxs ((doubled_le hlength b).trans_lt hlt)

end Bounded

end Finite

/-! ## Lengths -/

section Finite

variable (hn : 0 < n) (hv : ∀ c ∈ v.toList, isFinite c)

include hn hv

theorem norm_beq_zero_iff : v.norm == 0 ↔ ∀ c ∈ v.toList, absValue c ^ 2 ≤ 2 ^ (-1075 : ℤ) := by
  have hsum := isUnsigned_dot_self hn hv
  rw [norm, beq_zero_iff hsum.sqrt.not_isNaN, magnitudeBits_sqrt_eq_zero_iff hsum,
    dot_self_eq_zero_iff hn hv]

/-- Nothing is left of a finite component over an infinite length. -/
theorem absValue_over_norm_of_overflow (hoverflow : ¬ isFinite (v.dot v)) {c : Float}
    (hc : c ∈ v.toList) : absValue (c * (1 / v.norm)) = 0 := by
  have hlength : v.norm = infinity false :=
    (isUnsigned_dot_self hn hv).sqrt_eq_infinity hoverflow
  have hreciprocal : 1 / v.norm = zero false := by
    rw [hlength, reciprocal_of_infinity (magnitudeBits_infinity false)]
    rfl
  have hproduct := isNearest_mul (hv c hc) (isFinite_zero false)
  rw [absValue_zero, mul_zero] at hproduct
  rw [hreciprocal, hproduct.unique (isNearest_zero _), absValue_zero]

end Finite

section Length

variable (hn : 0 < n) (hv : ∀ c ∈ v.toList, isFinite c) (hfinite : isFinite (v.dot v))
  (hsome : magnitudeBits (v.dot v) ≠ 0)

include hn hv hfinite hsome

theorem norm_bounds : absValue v.norm ^ 2 ≤ 16 * absValue (v.dot v) ∧
    absValue (v.dot v) ≤ 16 * absValue v.norm ^ 2 :=
  sqrt_bounds hfinite (isUnsigned_dot_self hn hv) hsome

/-- The reciprocal of a length is far from every bound of the format. -/
theorem one_le_reciprocal_norm :
    0 < absValue v.norm ∧ isFinite (1 / v.norm) ∧
      1 ≤ 2 * absValue v.norm * absValue (1 / v.norm) := by
  have hsum := isUnsigned_dot_self hn hv
  have hlength : isFinite v.norm := isFinite_sqrt hfinite hsum.not_isNegative
  have hne : magnitudeBits v.norm ≠ 0 := mt (magnitudeBits_sqrt_eq_zero_iff hsum).mp hsome
  have hpos := absValue_pos_of_ne_zero hne
  have hge : (2 : ℚ) ^ (-540 : ℤ) ≤ absValue v.norm := by
    refine le_of_sq_le_sq ?_ hpos.le
    calc ((2 : ℚ) ^ (-540 : ℤ)) ^ 2 = 2 ^ (-1080 : ℤ) := by
          rw [← zpow_natCast, ← zpow_mul]
          norm_num
      _ ≤ 2 ^ (-1075 : ℤ) / 16 := by
          rw [show (-1080 : ℤ) = -1075 - 5 by norm_num, zpow_sub₀ two_ne_zero]
          exact div_le_div_of_nonneg_left (zpow_pos two_pos _).le (by norm_num) (by norm_num)
      _ ≤ absValue v.norm ^ 2 := by
          linarith [least_le_absValue hfinite hsome, (norm_bounds hn hv hfinite hsome).2]
  have hreciprocal : isFinite (1 / v.norm) := by
    rw [(isNearest_reciprocal hlength hne).isFinite_iff]
    calc 1 / absValue v.norm ≤ 1 / 2 ^ (-540 : ℤ) :=
          one_div_le_one_div_of_le (zpow_pos two_pos _) hge
      _ = 2 ^ (540 : ℤ) := by rw [one_div, ← zpow_neg, neg_neg]
      _ < overflowBound := two_zpow_lt_overflowBound (by norm_num)
  have hbits : magnitudeBits (1 / v.norm) < infinityBits := of_decide_eq_true hreciprocal
  have herror := reciprocal_error hlength hne hbits.ne
  have hbelow := (abs_le.mp (show |absValue (1 / v.norm) - 1 / absValue v.norm| ≤
    1 / absValue v.norm / 2 by linarith [one_div_pos.mpr hpos])).1
  refine ⟨hpos, hreciprocal, ?_⟩
  calc 1 = 2 * absValue v.norm * (1 / absValue v.norm / 2) := by
        field_simp
    _ ≤ 2 * absValue v.norm * absValue (1 / v.norm) := by
        gcongr
        linarith

/-- A vector is not longer than what its components add up to, so that not all of them can be small
against its length. -/
theorem exists_over_norm_ne_zero (hle : n ≤ 4) :
    ∃ c ∈ v.toList, absValue (c * (1 / v.norm)) ≠ 0 := by
  obtain ⟨hpos, hreciprocal, hone⟩ := one_le_reciprocal_norm hn hv hfinite hsome
  by_contra! hall
  have hb : ∀ c ∈ v.toList, absValue c ≤ 2 ^ (-1074 : ℤ) * absValue v.norm := by
    intro c hc
    have hproduct := isNearest_mul (hv c hc) hreciprocal
    have hsmall := hproduct.magnitudeBits_eq_zero_iff.mp
      (magnitudeBits_eq_zero_iff.mpr (hall c hc))
    calc absValue c ≤ absValue c * (2 * absValue v.norm * absValue (1 / v.norm)) :=
          le_mul_of_one_le_right (absValue_nonneg c) hone
      _ = absValue c * absValue (1 / v.norm) * (2 * absValue v.norm) := by ring
      _ ≤ 2 ^ (-1075 : ℤ) * (2 * absValue v.norm) := by gcongr
      _ = 2 ^ (-1074 : ℤ) * absValue v.norm := by
          rw [show (-1074 : ℤ) = -1075 + 1 by norm_num, zpow_add_one₀ two_ne_zero]
          ring
  have hunit : ((2 : ℚ) ^ (-1074 : ℤ)) ^ 2 ≤ 1 / 2 ^ 20 := by
    rw [← zpow_natCast, ← zpow_mul, one_div, ← zpow_natCast, ← zpow_neg]
    exact zpow_le_zpow_right₀ one_le_two (by norm_num)
  have hsquared : absValue (v.dot v) ≤ 4 ^ 4 * (1 / 2 ^ 20 * (16 * absValue (v.dot v))) := by
    calc absValue (v.dot v) ≤ 4 ^ n * (2 ^ (-1074 : ℤ) * absValue v.norm) ^ 2 :=
          dot_self_le hn hv hb hfinite
      _ = 4 ^ n * ((2 ^ (-1074 : ℤ)) ^ 2 * absValue v.norm ^ 2) := by rw [mul_pow]
      _ ≤ 4 ^ 4 * (1 / 2 ^ 20 * (16 * absValue (v.dot v))) := by
          gcongr
          · norm_num
          · exact (norm_bounds hn hv hfinite hsome).1
  have hleast := absValue_pos_of_ne_zero hsome
  linarith

end Length

end RealVector

end ReversePolish
