import ReversePolish.Proofs.Linear.Pivot

/-! # Elimination with NaN

NaN in the rows and columns that are still to be cleared stays in them, so that the elimination of a
matrix with NaN always ends at a column without pivot. -/

namespace ReversePolish.SquareMatrix

open Binary64

variable {n : ℕ} {m : SquareMatrix n} {col : Fin n}

theorem entry_exchange (m : SquareMatrix n) (i j k l : Fin n) :
    (m.exchange i j).entry k l = m.entry (Equiv.swap i j k) l := by
  simp only [entry, exchange, Fin.getElem_fin, Vector.getElem_swap, Equiv.swap_apply_def, Fin.ext_iff]
  split
  · rfl
  · split <;> rfl

/-- There is NaN from row `k` and column `l` on. -/
def HasNaN (m : SquareMatrix n) (k l : ℕ) : Prop :=
  ∃ i j : Fin n, k ≤ i ∧ l ≤ j ∧ (m.entry i j).isNaN

theorem HasNaN.exchange {i j : Fin n} {l : ℕ} (h : m.HasNaN col l) (hi : col ≤ i) (hj : col ≤ j) :
    (m.exchange i j).HasNaN col l := by
  obtain ⟨k, c, hk, hc, hnan⟩ := h
  refine ⟨Equiv.swap i j k, c, ?_, hc, by rwa [entry_exchange, Equiv.swap_apply_self]⟩
  rw [Equiv.swap_apply_def]
  split
  · exact hj
  · split
    · exact hi
    · exact hk

theorem HasNaN.beyond_pivot {pivot : Fin n} (h : m.HasNaN col col)
    (hpivot : m.pivotRow? col 0 = some pivot) : m.HasNaN col (col + 1) := by
  obtain ⟨i, j, hi, hj, hnan⟩ := h
  refine ⟨i, j, hi, lt_of_le_of_ne hj fun heq => ?_, hnan⟩
  obtain rfl : col = j := Fin.ext heq
  rw [pivotRow?_eq_none_iff.mpr (.inr ⟨i, hi, hnan⟩)] at hpivot
  cases hpivot

namespace Reduction

variable {r next : Reduction n}

/-! ## Steps -/

/-- What is below the pivot row after a step. -/
theorem step?_eq_some (h : r.step? col = some next) :
    ∃ pivot, r.rows.pivotRow? col 0 = some pivot ∧ ∀ i k : Fin n, col < i → col ≤ k →
      next.rows.entry i k = (r.rows.exchange pivot col).entry i k -
        (r.rows.exchange pivot col).entry i col / (r.rows.exchange pivot col).entry col col *
          (r.rows.exchange pivot col).entry col k := by
  obtain ⟨pivot, hpivot, hnext⟩ := Option.bind_eq_some_iff.mp h
  obtain rfl := Option.some.inj hnext
  refine ⟨pivot, hpivot, fun i k hi hk => ?_⟩
  simp [entry, hi, not_lt.mpr hk]

theorem step?_eq_none_iff : r.step? col = none ↔
    (∀ i, col ≤ i → magnitudeBits (r.rows.entry i col) = 0) ∨
      ∃ i, col ≤ i ∧ (r.rows.entry i col).isNaN := by
  rw [← pivotRow?_eq_none_iff, step?]
  cases r.rows.pivotRow? col 0 with
  | none => exact iff_of_true rfl rfl
  | some pivot => exact iff_of_false (by simp) (by simp)

/-- NaN in a row below stays there, and NaN in the pivot row comes into all rows below. -/
theorem hasNaN_step? (hnan : r.rows.HasNaN col col) (h : r.step? col = some next) :
    next.rows.HasNaN (col + 1) (col + 1) := by
  obtain ⟨pivot, hpivot, hentry⟩ := step?_eq_some h
  obtain ⟨i, j, hi, hj, hnan⟩ :=
    (hnan.beyond_pivot hpivot).exchange (le_of_pivotRow? hpivot) le_rfl
  have hcol : col ≤ j := Fin.le_def.mpr (by omega)
  rcases (Fin.le_def.mpr hi).lt_or_eq with hbelow | rfl
  · refine ⟨i, j, hbelow, hj, ?_⟩
    rw [hentry i j hbelow hcol, sub_of_isNaN (.inl hnan)]
    exact isNaN_pack
  · refine ⟨j, j, hj, hj, ?_⟩
    have hproduct (x : Float) : (x * (r.rows.exchange pivot col).entry col j).isNaN := by
      rw [mul_of_isNaN (.inr hnan)]
      exact isNaN_pack
    rw [hentry j j hj hcol, sub_of_isNaN (.inr (hproduct _))]
    exact isNaN_pack

/-! ## Runs -/

theorem step?_of_run_error {cols : List (Fin n)} (h : run cols r = .error (col, next)) :
    next.step? col = none := by
  induction cols generalizing r with
  | nil => cases h
  | cons c cols ih =>
      rw [run] at h
      split at h
      · exact ih h
      · next hnone =>
        cases h
        exact hnone

/-- With NaN ahead, no run comes to its end. -/
theorem exists_run_error {k : ℕ} {cols : List (Fin n)} (hcols : (List.finRange n).drop k = cols)
    (hnan : r.rows.HasNaN k k) : ∃ col last, run cols r = .error (col, last) := by
  induction cols generalizing k r with
  | nil =>
      obtain ⟨i, -, hi, -⟩ := hnan
      have hle : n ≤ k := by simpa using List.drop_eq_nil_iff.mp hcols
      omega
  | cons c cols ih =>
      have hk : k < (List.finRange n).length := by
        by_contra hge
        rw [List.drop_eq_nil_of_le (not_lt.mp hge)] at hcols
        cases hcols
      rw [List.drop_eq_getElem_cons hk, List.getElem_finRange] at hcols
      obtain ⟨rfl, hrest⟩ := List.cons.inj hcols
      rw [run]
      split
      · next hstep => exact ih hrest (hasNaN_step? hnan hstep)
      · exact ⟨_, _, rfl⟩

end Reduction

/-! ## Determinants -/

theorem determinant_of_error {r : Reduction n} (h : m.reduce = .error (col, r)) :
    m.determinant = 0 := by
  rw [determinant, h]

/-- A reduction ends early only at a column that is zero from the diagonal on or has NaN there. -/
theorem column_of_error {r : Reduction n} (h : m.reduce = .error (col, r)) :
    (∀ i, col ≤ i → magnitudeBits (r.rows.entry i col) = 0) ∨
      ∃ i, col ≤ i ∧ (r.rows.entry i col).isNaN :=
  Reduction.step?_eq_none_iff.mp (Reduction.step?_of_run_error h)

theorem exists_error_of_isNaN {i j : Fin n} (h : (m.entry i j).isNaN) :
    ∃ col r, m.reduce = .error (col, r) :=
  Reduction.exists_run_error (k := 0) rfl ⟨i, j, Nat.zero_le _, Nat.zero_le _, h⟩

end ReversePolish.SquareMatrix
