import ReversePolish.Linear.SquareMatrix
import ReversePolish.Value.Kind
import ReversePolish.Value.Scalar

/-! # Values -/

namespace ReversePolish

/-- What the calculator computes with. A unit is a name without its leading underscore. -/
inductive Value where
  | scalar (s : Scalar)
  | vector (d : Dimension) (v : RealVector d.size)
  | matrix (d : Dimension) (m : SquareMatrix d.size)
  | unit (name : String)

namespace Value

@[match_pattern]
abbrev int (n : Word) : Value := .scalar (.int n)

@[match_pattern]
abbrev bigInt (n : Int) : Value := .scalar (.bigInt n)

@[match_pattern]
abbrev real (x : Float) : Value := .scalar (.real x)

/-- A machine integer if the number fits, and else an integer of any size. -/
def ofInt (n : Int) : Value :=
  match Word.ofInt? n with
  | some w => int w
  | none => bigInt n

/-- A vector of two to four components. -/
def ofComponents? (xs : List Float) : Option Value := do
  let d ← Dimension.ofSize? xs.length
  let v ← RealVector.ofList? d.size xs
  some (vector d v)

/-- A square matrix of two to four rows. -/
def ofRows? (rows : List (List Float)) : Option Value := do
  let d ← Dimension.ofSize? rows.length
  let m ← SquareMatrix.ofRows? d.size rows
  some (matrix d m)

def kind : Value → Kind
  | int _ => .int
  | bigInt _ => .bigInt
  | real _ => .real
  | vector d _ => .vector d
  | matrix d _ => .matrix d
  | unit _ => .unit

def scalar? : Value → Option Scalar
  | scalar s => some s
  | _ => none

def isScalar (v : Value) : Bool := v.scalar?.isSome

def isZeroScalar : Value → Bool
  | scalar s => s.isZero
  | _ => false

/-- The real number for a scalar. -/
def toReal? (v : Value) : Option Float := v.scalar?.map Scalar.toReal

/-- The integer that a scalar in one of the integer representations is. -/
def integer? (v : Value) : Option Int := v.scalar?.bind Scalar.integer?

/-- The integer as a word, if it fits. -/
def word? (v : Value) : Option Word := v.scalar?.bind Scalar.word?

def components? : Value → Option (List Float)
  | vector _ v => some v.toList
  | _ => none

def rows? : Value → Option (List (List Float))
  | matrix _ m => some m.toRows
  | _ => none

/-- Scalars are equal after promotion, all other values only within their kind and entry by
entry. -/
def equal : Value → Value → Bool
  | scalar a, scalar b => a == b
  | vector _ v, vector _ w => v.toList == w.toList
  | matrix _ a, matrix _ b => a.toRows == b.toRows
  | unit a, unit b => a == b
  | _, _ => false

instance : BEq Value := ⟨equal⟩

instance : Inhabited Value := ⟨int 0⟩

end Value

end ReversePolish
