/-! # Machine integers

Their operations are exact or give nothing. -/

namespace ReversePolish

/-- A machine integer of 64 bits. -/
abbrev Word := Int64

namespace Word

/-- The word of that value, if there is one. -/
def ofInt? (n : Int) : Option Word :=
  if Int64.minValue.toInt ≤ n ∧ n ≤ Int64.maxValue.toInt then some (Int64.ofInt n) else none

/-- The word for the exact result of an operation. -/
def checked (exact : Int → Int → Int) (a b : Word) : Option Word := ofInt? (exact a.toInt b.toInt)

/-- Whether the quotient is undefined or too large by one. -/
def divisionOverflows (a b : Word) : Bool := b = 0 || a = Int64.minValue && b = -1

/-- The quotient toward zero. -/
def quotient? (a b : Word) : Option Word := if divisionOverflows a b then none else some (a / b)

/-- The remainder of the quotient toward zero. -/
def remainder? (a b : Word) : Option Word := if divisionOverflows a b then none else some (a % b)

/-- The quotient toward negative infinity and its remainder, from those toward zero. -/
def flooredDivision? (a b : Word) : Option (Word × Word) := do
  let q ← quotient? a b
  let r ← remainder? a b
  if r ≠ 0 ∧ decide (r < 0) ≠ decide (b < 0) then some (q - 1, r + b) else some (q, r)

/-- A machine integer and those next to it, without leaving the range. -/
def nearby (w : Word) : List Word :=
  [Int64.ofIntClamp (w.toInt - 1), w, Int64.ofIntClamp (w.toInt + 1)]

end Word

end ReversePolish
