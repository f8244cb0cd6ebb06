import ReversePolish.Proofs.Linear.Elimination
import ReversePolish.Proofs.Operator.Scalars

/-! # Determinants

The determinant is zero wherever the elimination finds no pivot, which happens for zeros and for NaN
alike. -/

namespace ReversePolish.LinearAlgebra

open Operator Binary64

variable {catalog : Catalog}

theorem apply_det (limits : Limits) {d : Dimension} (m : SquareMatrix d.size) :
    operators[11].apply limits [.matrix d m] = .ok (.real m.determinant) := by
  have hfits : Signature.Fits [.matrix] [.matrix d m] :=
    .cons (KindSet.contains_matrix.mpr ⟨d, m, rfl⟩) .nil
  rw [apply_of_fits List.mem_cons_self limits hfits]
  rfl

/-- The determinant comes to zero early only at a column that is zero from the diagonal on or has NaN
there, and it does so for every matrix with NaN. -/
theorem det_without_pivot (hcatalog : Catalog.standard = .ok catalog) (limits : Limits) :
    ∃ det, catalog.find? "det" = some det ∧ ∀ (d : Dimension) (m : SquareMatrix d.size),
      (∀ col r, m.reduce = .error (col, r) →
        det.apply limits [.matrix d m] = .ok (.real 0) ∧
          ((∀ i, col ≤ i → magnitudeBits (r.rows.entry i col) = 0) ∨
            ∃ i, col ≤ i ∧ (r.rows.entry i col).isNaN)) ∧
      ((∃ i j, (m.entry i j).isNaN) → det.apply limits [.matrix d m] = .ok (.real 0)) := by
  refine ⟨operators[11], find?_operator hcatalog 11 (by decide), fun d m => ⟨?_, ?_⟩⟩
  · intro col r hstop
    refine ⟨?_, SquareMatrix.column_of_error hstop⟩
    rw [apply_det, SquareMatrix.determinant_of_error hstop]
  · rintro ⟨i, j, hnan⟩
    obtain ⟨col, r, hstop⟩ := SquareMatrix.exists_error_of_isNaN hnan
    rw [apply_det, SquareMatrix.determinant_of_error hstop]

section Runs

variable {n : ℕ}

/-- Whether the reduction ends at a column with NaN, if it ends early. -/
def stopsAtNaN? (m : SquareMatrix n) : Option Bool :=
  match m.reduce with
  | .ok _ => none
  | .error (col, r) =>
    some ((List.finRange n).any fun i => col ≤ i && (r.rows.entry i col).isNaN)

theorem exists_stop (m : SquareMatrix n) (nan : Bool) (h : stopsAtNaN? m = some nan) :
    ∃ col r, m.reduce = .error (col, r) ∧
      (nan ↔ ∃ i, col ≤ i ∧ (r.rows.entry i col).isNaN) := by
  rw [stopsAtNaN?] at h
  split at h
  · cases h
  · next col r hstop =>
    obtain rfl := Option.some.inj h
    refine ⟨col, r, hstop, ?_⟩
    simp only [List.any_eq_true, List.mem_finRange, true_and, Bool.and_eq_true, decide_eq_true_eq]

end Runs

/-- Two equal rows leave a column of zeros, and NaN leaves NaN. -/
theorem det_without_pivot_of_equal_rows :
    let catalog := Catalog.standard.toOption.getD .empty
    let limits : Limits := ⟨.onOverflow, 65536⟩
    let m : SquareMatrix Dimension.two.size := #v[#v[1, 2], #v[1, 2]]
    let m' : SquareMatrix Dimension.two.size := #v[#v[1, 2], #v[3, .nan]]
    ∃ det col r, catalog.find? "det" = some det ∧ m.reduce = .error (col, r) ∧
      det.apply limits [.matrix .two m] = .ok (.real 0) ∧
      (∀ i, col ≤ i → magnitudeBits (r.rows.entry i col) = 0) ∧
      (∃ i j, (m'.entry i j).isNaN) ∧ det.apply limits [.matrix .two m'] = .ok (.real 0) := by
  intro catalog limits m m'
  obtain ⟨det, hfind, hdet⟩ := det_without_pivot Catalog.standard_eq limits
  obtain ⟨col, r, hstop, hnumbers⟩ := exists_stop m false (by decide +kernel)
  obtain ⟨hzero, hcolumn⟩ := (hdet .two m).1 col r hstop
  have hnan : ∃ i j, (m'.entry i j).isNaN := ⟨Fin.last 1, Fin.last 1, by decide +kernel⟩
  exact ⟨det, col, r, hfind, hstop, hzero,
    hcolumn.resolve_right (mt hnumbers.mpr Bool.false_ne_true), hnan, (hdet .two m').2 hnan⟩

/-- All entries are finite, and the elimination comes to the difference of two infinities; the
determinant of these numbers is `-2 ^ 1023`. -/
theorem det_of_finite_stops_at_nan :
    let catalog := Catalog.standard.toOption.getD .empty
    let limits : Limits := ⟨.onOverflow, 65536⟩
    let big := Float.ofBits 0x7fe0000000000000
    let m : SquareMatrix Dimension.three.size := #v[#v[1, big, 0], #v[1, big, 0.5], #v[-1, big, 0]]
    (∀ i j, isFinite (m.entry i j)) ∧ ∃ det col r, catalog.find? "det" = some det ∧
      m.reduce = .error (col, r) ∧ det.apply limits [.matrix .three m] = .ok (.real 0) ∧
      ∃ i, col ≤ i ∧ (r.rows.entry i col).isNaN := by
  intro catalog limits big m
  obtain ⟨col, r, hstop, hnan⟩ := exists_stop m true (by decide +kernel)
  refine ⟨by decide +kernel, operators[11], col, r,
    find?_operator Catalog.standard_eq 11 (by decide), hstop, ?_, hnan.mp rfl⟩
  exact (apply_det limits m).trans (by rw [SquareMatrix.determinant_of_error hstop])

end ReversePolish.LinearAlgebra
