import ReversePolish.Linear.Vector

/-! # Square matrices of reals -/

namespace ReversePolish

/-- A square matrix of reals, by rows. -/
abbrev SquareMatrix (n : Nat) := Vector (RealVector n) n

namespace SquareMatrix

variable {n : Nat}

/-- The matrix of exactly these rows, each as long as there are rows. -/
def ofRows? (n : Nat) (rows : List (List Float)) : Option (SquareMatrix n) := do
  let rows ← rows.mapM (RealVector.ofList? n)
  if h : rows.length = n then some ⟨rows.toArray, by simp [h]⟩ else none

def toRows (m : SquareMatrix n) : List (List Float) := m.toList.map Vector.toList

def identity (n : Nat) : SquareMatrix n :=
  .ofFn fun i => .ofFn fun j => if i = j then 1 else 0

def row (m : SquareMatrix n) (i : Fin n) : RealVector n := m[i]

def entry (m : SquareMatrix n) (i j : Fin n) : Float := m[i][j]

/-- The matrix with two rows exchanged. -/
def exchange (m : SquareMatrix n) (i j : Fin n) : SquareMatrix n := m.swap i j

def transpose (m : SquareMatrix n) : SquareMatrix n :=
  .ofFn fun i => .ofFn fun j => m.entry j i

def add (a b : SquareMatrix n) : SquareMatrix n := a.zipWith RealVector.add b

def scale (m : SquareMatrix n) (k : Float) : SquareMatrix n := m.map (RealVector.scale · k)

def neg (m : SquareMatrix n) : SquareMatrix n := m.scale (-1)

def mulVector (m : SquareMatrix n) (v : RealVector n) : RealVector n :=
  m.map (RealVector.dot · v)

def mul (a b : SquareMatrix n) : SquareMatrix n :=
  let columns := b.transpose
  a.map fun row => columns.map fun column => row.dot column

/-- The largest absolute value of an entry, NaN left aside. -/
def maxAbs (m : SquareMatrix n) : Float :=
  m.toRows.flatten.foldl (fun best x => if best < x.abs then x.abs else best) 0

end SquareMatrix

end ReversePolish
