import Mathlib.Data.Set.List
import ReversePolish.Value.Basic

/-! # Vectors and matrices by their entries

A list of reals makes up a vector exactly if it is as long as one, and a list of such lists a
matrix exactly if it is square. -/

namespace ReversePolish

namespace Dimension

theorem ofSize?_eq_some {n : ℕ} {d : Dimension} : ofSize? n = some d ↔ d.size = n := by
  constructor
  · intro h
    have hsize := List.find?_some h
    exact of_decide_eq_true hsize
  · rintro rfl
    cases d <;> rfl

theorem size_pos (d : Dimension) : 0 < d.size := by
  cases d <;> decide

theorem size_le_four (d : Dimension) : d.size ≤ 4 := by
  cases d <;> decide

theorem ne_nil_of_length_eq {α : Type} {d : Dimension} {xs : List α} (h : xs.length = d.size) :
    xs ≠ [] := by
  rintro rfl
  cases d <;> cases h

end Dimension

variable {n : ℕ}

theorem RealVector.ofList?_eq_some {xs : List Float} {v : RealVector n} :
    ofList? n xs = some v ↔ v.toList = xs := by
  unfold ofList?
  split
  · rw [Option.some.injEq]
    constructor
    · rintro rfl
      rfl
    · rintro rfl
      rfl
  · next hlength =>
    simp only [false_iff, reduceCtorEq]
    rintro rfl
    exact hlength v.length_toList

theorem RealVector.toList_scale (v : RealVector n) (k : Float) :
    (v.scale k).toList = v.toList.map (· * k) :=
  Vector.toList_map ..

theorem SquareMatrix.ofRows?_eq_some {rows : List (List Float)} {m : SquareMatrix n} :
    ofRows? n rows = some m ↔ m.toRows = rows := by
  have hrows {vs : List (RealVector n)} :
      rows.mapM (RealVector.ofList? n) = some vs ↔ vs.map Vector.toList = rows := by
    induction rows generalizing vs with
    | nil =>
        rw [List.mapM_nil, Option.pure_def, Option.some.injEq, List.map_eq_nil_iff, eq_comm]
    | cons row rows ih =>
        simp only [List.mapM_cons, Option.bind_eq_bind, Option.bind_eq_some_iff, ih,
          RealVector.ofList?_eq_some, Option.pure_def, Option.some.injEq]
        constructor
        · rintro ⟨v, rfl, vs, rfl, rfl⟩
          rfl
        · intro h
          obtain ⟨v, vs, rfl, hv, hvs⟩ := List.map_eq_cons_iff.mp h
          exact ⟨v, hv, vs, hvs, rfl⟩
  simp only [ofRows?, Option.bind_eq_bind, Option.bind_eq_some_iff, hrows, toRows]
  constructor
  · rintro ⟨vs, rfl, h⟩
    split at h
    · obtain rfl := Option.some.inj h
      rfl
    · cases h
  · rintro rfl
    exact ⟨m.toList, rfl, dif_pos m.length_toList⟩

namespace Value

theorem ofComponents?_eq_some {xs : List Float} {value : Value} :
    ofComponents? xs = some value ↔ ∃ d v, value = vector d v ∧ v.toList = xs := by
  simp only [ofComponents?, Option.bind_eq_bind, Option.bind_eq_some_iff,
    Dimension.ofSize?_eq_some, RealVector.ofList?_eq_some, Option.some.injEq]
  constructor
  · rintro ⟨d, -, v, hv, rfl⟩
    exact ⟨d, v, rfl, hv⟩
  · rintro ⟨d, v, rfl, rfl⟩
    exact ⟨d, v.length_toList.symm, v, rfl, rfl⟩

theorem ofRows?_eq_some {rows : List (List Float)} {value : Value} :
    ofRows? rows = some value ↔ ∃ d m, value = matrix d m ∧ m.toRows = rows := by
  simp only [ofRows?, Option.bind_eq_bind, Option.bind_eq_some_iff,
    Dimension.ofSize?_eq_some, SquareMatrix.ofRows?_eq_some, Option.some.injEq]
  constructor
  · rintro ⟨d, -, m, hm, rfl⟩
    exact ⟨d, m, rfl, hm⟩
  · rintro ⟨d, m, rfl, rfl⟩
    exact ⟨d, by simp [SquareMatrix.toRows], m, rfl, rfl⟩

/-- A vector or a matrix. -/
def IsShaped (v : Value) : Prop :=
  (∃ d w, v = .vector d w) ∨ ∃ d m, v = .matrix d m

/-- The components of a vector, or those of a matrix row by row. -/
def entries : Value → List Float
  | vector _ v => v.toList
  | matrix _ m => m.toRows.flatten
  | _ => []

end Value

theorem RealVector.exists_toList_eq {xs : List Float} (h : xs.length = n) :
    ∃ v : RealVector n, v.toList = xs :=
  ⟨⟨xs.toArray, by simpa using h⟩, rfl⟩

theorem SquareMatrix.length_toRows (m : SquareMatrix n) : m.toRows.length = n := by
  simp [toRows]

theorem SquareMatrix.length_of_mem_toRows {m : SquareMatrix n} {row : List Float}
    (h : row ∈ m.toRows) : row.length = n := by
  obtain ⟨v, -, rfl⟩ := List.mem_map.mp h
  exact v.length_toList

theorem SquareMatrix.exists_toRows_eq {rows : List (List Float)} (h : rows.length = n)
    (hrows : ∀ row ∈ rows, row.length = n) : ∃ m : SquareMatrix n, m.toRows = rows := by
  have hvectors : rows ∈ Set.range (List.map fun v : RealVector n => v.toList) := by
    rw [Set.range_list_map]
    exact fun row hrow => RealVector.exists_toList_eq (hrows row hrow)
  obtain ⟨vs, rfl⟩ := hvectors
  exact ⟨⟨vs.toArray, by simpa using h⟩, rfl⟩

end ReversePolish
