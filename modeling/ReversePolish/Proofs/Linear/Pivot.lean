import ReversePolish.Linear.Elimination
import ReversePolish.Proofs.Binary64.Sum

/-! # The search for a pivot

The row found has the greatest absolute value by the total order, which puts NaN above all others.
None is found in a column of zeros, and none in a column with NaN. -/

namespace ReversePolish

namespace Binary64

open Float.Model Float.Model.UnpackedFloat

variable {x : Float}

/-! ## Absolute values -/

theorem abs_eq (x : Float) : x.abs = .ofModel (.pack x.toModel.unpack.abs) := rfl

theorem abs_of_isNaN (h : x.isNaN) : x.abs = .ofModel (.pack .notANumber) := by
  rw [abs_eq, (unpacks x).eq_nan h]
  rfl

/-- The absolute value is the number without its sign bit. -/
theorem abs_of_not_isNaN (h : ¬ x.isNaN) : x.abs = ofMagnitudeBits false (magnitudeBits x) := by
  rw [Binary64.isNaN_iff] at h
  have hu := unpacks x
  rw [abs_eq]
  generalize x.toModel.unpack = u at hu
  cases hu with
  | nan hnan => exact absurd hnan h
  | infinity hinfinity =>
    rw [hinfinity]
    exact pack_infinity false
  | zero hzero =>
    rw [hzero]
    exact pack_zero false
  | finite hfinite hpos =>
    have hparts := isCanonical hfinite
    rw [magnitudeBits_eq, ← Nat.min_eq_left hparts.bits_lt.le]
    exact pack_finite false hpos hparts.lt hparts.least hparts.full

theorem isNaN_abs : x.abs.isNaN ↔ x.isNaN := by
  by_cases h : x.isNaN
  · rw [abs_of_isNaN h]
    exact iff_of_true isNaN_pack h
  · have hle : magnitudeBits x ≤ infinityBits := not_lt.mp (mt isNaN_iff.mpr h)
    rw [abs_of_not_isNaN h, isNaN_iff, magnitudeBits_ofMagnitudeBits hle]
    exact iff_of_false hle.not_gt h

theorem orderKey_abs (h : ¬ x.isNaN) : orderKey x.abs = magnitudeBits x := by
  have hle : magnitudeBits x ≤ infinityBits := not_lt.mp (mt isNaN_iff.mpr h)
  rw [abs_of_not_isNaN h, orderKey, isNegative_ofMagnitudeBits hle,
    magnitudeBits_ofMagnitudeBits hle, if_neg Bool.false_ne_true]

/-- NaN is above all that is not. -/
theorem lt_orderKey_abs (h : x.isNaN) : infinityBits < orderKey x.abs := by
  rw [abs_of_isNaN h]
  decide

theorem isUnsigned_abs (h : ¬ x.isNaN) : IsUnsigned x.abs := by
  refine ⟨mt isNaN_abs.mp h, ?_⟩
  rw [abs_of_not_isNaN h, isNegative_ofMagnitudeBits (not_lt.mp (mt isNaN_iff.mpr h))]
  exact Bool.false_ne_true

theorem le_iff (x y : Float) :
    x ≤ y ↔ (x.toModel.unpack.compare y.toModel.unpack).any Ordering.isLE :=
  decide_eq_true_iff

theorem IsUnsigned.le_zero_iff (h : IsUnsigned x) : x ≤ 0 ↔ magnitudeBits x = 0 := by
  have hpositive : 0 < infinityBits := by decide
  have hsign : sign x = .positive := if_neg h.not_isNegative
  have hu := unpacks x
  rw [le_iff, unpack_zero]
  generalize x.toModel.unpack = u at hu
  cases hu with
  | nan hnan => exact absurd (isNaN_iff.mpr hnan) h.not_isNaN
  | infinity hinfinity =>
    rw [hsign]
    exact iff_of_false (by decide) (by omega)
  | zero hzero => exact iff_of_true rfl hzero
  | finite hfinite hpos =>
    have hbits := magnitudeBits_eq x
    rw [hsign]
    exact iff_of_false Bool.false_ne_true (by omega)

end Binary64

open Binary64

namespace SquareMatrix

variable {n : ℕ} {m : SquareMatrix n} {col : Fin n}

/-! ## The row with the greatest absolute value -/

theorem largestRow?_cons_cons (b r : Fin n) (rows : List (Fin n)) :
    m.largestRow? col (b :: r :: rows) = m.largestRow? col
      ((if orderKey (m.entry b col).abs ≤ orderKey (m.entry r col).abs then r else b) :: rows) :=
  rfl

theorem exists_largestRow? (m : SquareMatrix n) (col b : Fin n) (rows : List (Fin n)) :
    ∃ r ∈ b :: rows, m.largestRow? col (b :: rows) = some r ∧
      ∀ s ∈ b :: rows, orderKey (m.entry s col).abs ≤ orderKey (m.entry r col).abs := by
  induction rows generalizing b with
  | nil => exact ⟨b, List.mem_cons_self, rfl, by simp⟩
  | cons c rows ih =>
      rw [largestRow?_cons_cons]
      split
      · next hle =>
        obtain ⟨r, hr, hlargest, hgreatest⟩ := ih c
        refine ⟨r, List.mem_cons_of_mem b hr, hlargest, List.forall_mem_cons.mpr ⟨?_, hgreatest⟩⟩
        exact hle.trans (hgreatest c List.mem_cons_self)
      · next hlt =>
        obtain ⟨r, hr, hlargest, hgreatest⟩ := ih b
        obtain ⟨hb, hrest⟩ := List.forall_mem_cons.mp hgreatest
        refine ⟨r, ?_, hlargest, List.forall_mem_cons.mpr ⟨hb, List.forall_mem_cons.mpr ⟨?_, hrest⟩⟩⟩
        · exact (List.mem_cons.mp hr).elim (fun h => h ▸ List.mem_cons_self) fun h =>
            List.mem_cons_of_mem b (List.mem_cons_of_mem c h)
        · exact (not_le.mp hlt).le.trans hb

/-- The search goes through the rows from the diagonal on, of which there is at least one. -/
theorem exists_largestRow?_below (m : SquareMatrix n) (col : Fin n) :
    ∃ r, col ≤ r ∧ m.largestRow? col ((List.finRange n).filter (col ≤ ·)) = some r ∧
      ∀ s, col ≤ s → orderKey (m.entry s col).abs ≤ orderKey (m.entry r col).abs := by
  have hmem (s : Fin n) : s ∈ (List.finRange n).filter (col ≤ ·) ↔ col ≤ s := by
    simp [List.mem_filter]
  generalize (List.finRange n).filter (col ≤ ·) = rows at hmem ⊢
  cases rows with
  | nil => exact absurd ((hmem col).mpr le_rfl) List.not_mem_nil
  | cons b rows =>
      obtain ⟨r, hr, hlargest, hgreatest⟩ := exists_largestRow? m col b rows
      exact ⟨r, (hmem r).mp hr, hlargest, fun s hs => hgreatest s ((hmem s).mpr hs)⟩

/-! ## The pivot -/

theorem pivotRow?_eq (m : SquareMatrix n) (col : Fin n) :
    ∃ r, col ≤ r ∧ (∀ s, col ≤ s →
        orderKey (m.entry s col).abs ≤ orderKey (m.entry r col).abs) ∧
      m.pivotRow? col 0 =
        if (m.entry r col).abs ≤ 0 || (m.entry r col).abs.isNaN then none else some r := by
  obtain ⟨r, hr, hlargest, hgreatest⟩ := exists_largestRow?_below m col
  refine ⟨r, hr, hgreatest, ?_⟩
  rw [pivotRow?, hlargest]
  rfl

theorem le_of_pivotRow? {pivot : Fin n} (h : m.pivotRow? col 0 = some pivot) : col ≤ pivot := by
  obtain ⟨r, hr, -, hpivot⟩ := pivotRow?_eq m col
  rw [hpivot] at h
  split at h
  · cases h
  · exact Option.some.inj h ▸ hr

/-- NaN anywhere in the column prevails in the search. -/
theorem isNaN_of_largest {r : Fin n}
    (hgreatest : ∀ s, col ≤ s → orderKey (m.entry s col).abs ≤ orderKey (m.entry r col).abs)
    (hnan : ∃ i, col ≤ i ∧ (m.entry i col).isNaN) : (m.entry r col).isNaN := by
  obtain ⟨i, hi, hnan⟩ := hnan
  by_contra hnumber
  have hlt := (lt_orderKey_abs hnan).trans_le (hgreatest i hi)
  rw [orderKey_abs hnumber] at hlt
  exact hnumber (isNaN_iff.mpr (by exact_mod_cast hlt))

theorem eq_zero_of_largest {r : Fin n} (hr : col ≤ r)
    (hgreatest : ∀ s, col ≤ s → orderKey (m.entry s col).abs ≤ orderKey (m.entry r col).abs)
    (hnumbers : ∀ i, col ≤ i → ¬ (m.entry i col).isNaN) :
    magnitudeBits (m.entry r col) = 0 ↔ ∀ i, col ≤ i → magnitudeBits (m.entry i col) = 0 := by
  refine ⟨fun hzero i hi => ?_, fun hall => hall r hr⟩
  have hle := hgreatest i hi
  rw [orderKey_abs (hnumbers i hi), orderKey_abs (hnumbers r hr), hzero] at hle
  omega

/-- A column has no pivot if it is zero from the diagonal on, or has NaN there. -/
theorem pivotRow?_eq_none_iff : m.pivotRow? col 0 = none ↔
    (∀ i, col ≤ i → magnitudeBits (m.entry i col) = 0) ∨
      ∃ i, col ≤ i ∧ (m.entry i col).isNaN := by
  obtain ⟨r, hr, hgreatest, hpivot⟩ := pivotRow?_eq m col
  rw [hpivot]
  by_cases hnan : ∃ i, col ≤ i ∧ (m.entry i col).isNaN
  · have habs := isNaN_abs.mpr (isNaN_of_largest hgreatest hnan)
    simp only [habs, Bool.or_true, if_true, hnan, or_true]
  · have hnumbers : ∀ i, col ≤ i → ¬ (m.entry i col).isNaN := fun i hi h => hnan ⟨i, hi, h⟩
    have hsize := isUnsigned_abs (hnumbers r hr)
    have hzero : (m.entry r col).abs ≤ 0 ↔ magnitudeBits (m.entry r col) = 0 := by
      rw [hsize.le_zero_iff, abs_of_not_isNaN (hnumbers r hr), magnitudeBits_ofMagnitudeBits
        (not_lt.mp (mt isNaN_iff.mpr (hnumbers r hr)))]
    rw [or_iff_left hnan, ← eq_zero_of_largest hr hgreatest hnumbers, ← hzero]
    simp only [Bool.eq_false_of_not_eq_true hsize.not_isNaN, Bool.or_false, decide_eq_true_eq,
      ite_eq_left_iff, reduceCtorEq, imp_false, not_not]

end SquareMatrix

end ReversePolish
