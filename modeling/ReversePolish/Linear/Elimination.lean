import ReversePolish.Binary64.Order
import ReversePolish.Linear.SquareMatrix

/-! # Gaussian elimination with partial pivoting -/

namespace ReversePolish.SquareMatrix

variable {n : Nat}

/-- The later of the rows with the greatest absolute value in a column, by the total order. -/
def largestRow? (m : SquareMatrix n) (col : Fin n) (rows : List (Fin n)) : Option (Fin n) :=
  rows.foldl (fun best r => some <|
    match best with
    | none => r
    | some b =>
      if Binary64.orderKey (m.entry b col).abs ≤ Binary64.orderKey (m.entry r col).abs then r
      else b) none

/-- The row at or below the diagonal with the greatest absolute value in the column, if that value
exceeds the tolerance. -/
def pivotRow? (m : SquareMatrix n) (col : Fin n) (tolerance : Float) : Option (Fin n) := do
  let row ← m.largestRow? col ((List.finRange n).filter (col ≤ ·))
  let size := (m.entry row col).abs
  if size ≤ tolerance || size.isNaN then none else some row

/-- Elimination under way: the rows as they stand, and the product of the pivots so far with a
change of sign for every exchange of rows. -/
structure Reduction (n : Nat) where
  rows : SquareMatrix n
  product : Float

namespace Reduction

/-- Clears a column below its pivot, unless it has none. -/
def step? (r : Reduction n) (col : Fin n) : Option (Reduction n) := do
  let pivot ← r.rows.pivotRow? col 0
  let m := r.rows.exchange pivot col
  let product := if pivot = col then r.product else -r.product
  let cleared := Vector.ofFn fun i : Fin n =>
    if col < i then
      let factor := m.entry i col / m.entry col col
      Vector.ofFn fun k : Fin n =>
        if k < col then m.entry i k else m.entry i k - factor * m.entry col k
    else m.row i
  some ⟨cleared, product * m.entry col col⟩

/-- Clears the columns in turn; a column without pivot ends the run and is named with the rows as
they stood. -/
def run : List (Fin n) → Reduction n → Except (Fin n × Reduction n) (Reduction n)
  | [], r => .ok r
  | col :: cols, r =>
    match r.step? col with
    | some next => run cols next
    | none => .error (col, r)

end Reduction

/-- The reduction of a matrix to triangular form. -/
def reduce (m : SquareMatrix n) : Except (Fin n × Reduction n) (Reduction n) :=
  Reduction.run (List.finRange n) ⟨m, 1⟩

/-- The product of the pivots; zero if a column has none. -/
def determinant (m : SquareMatrix n) : Float :=
  match m.reduce with
  | .ok r => r.product
  | .error _ => 0

/-- The distance from one to the next binary64 number. -/
def epsilon : Float := 2.220446049250313e-16

/-- Clears a column above and below its pivot, in the matrix and in its companion alike. -/
def inverseStep? (tolerance : Float) (state : SquareMatrix n × SquareMatrix n) (col : Fin n) :
    Option (SquareMatrix n × SquareMatrix n) := do
  let pivot ← state.1.pivotRow? col tolerance
  let m := state.1.exchange pivot col
  let companion := state.2.exchange pivot col
  let p := m.entry col col
  let pivotRow := RealVector.divide (m.row col) p
  let companionRow := RealVector.divide (companion.row col) p
  let clear (rows : SquareMatrix n) (base : RealVector n) : SquareMatrix n :=
    .ofFn fun i =>
      if i = col then base else RealVector.subtractMultiple (rows.row i) (m.entry i col) base
  some (clear m pivotRow, clear companion companionRow)

/-- The inverse, unless some pivot is negligible against the largest entry. -/
def inverse? (m : SquareMatrix n) : Option (SquareMatrix n) := do
  let tolerance := m.maxAbs * Float.ofNat n * epsilon
  let (_, inverse) ← (List.finRange n).foldlM (inverseStep? tolerance) (m, identity n)
  some inverse

end ReversePolish.SquareMatrix
