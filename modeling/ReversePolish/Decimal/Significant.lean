import ReversePolish.Rounding

/-! # Rounding a fraction to significant decimal digits -/

namespace ReversePolish.Decimal

/-- The number of decimal digits; zero has none. -/
def digitCount (n : Nat) : Nat :=
  if n = 0 then 0 else (Nat.toDigits 10 n).length

/-- The exponent of the leading digit of a positive fraction. -/
def leadingExponent (num den : Nat) : Int :=
  if den ≤ num then (digitCount (num / den) : Int) - 1
  else -(digitCount ((den - 1) / num) : Int)

/-- The number `digits * 10 ^ (exponent - p + 1)`, where `digits` has `p` digits. -/
structure Significant where
  digits : Nat
  exponent : Int
  deriving DecidableEq, Repr

/-- The positive fraction rounded to `p` significant digits, a tie to the even neighbour. -/
def round (p : Nat) (num den : Nat) : Significant :=
  let e := leadingExponent num den
  let place := e - p + 1
  let d := divHalfEven (num * Nat.pow 10 (-place).toNat) (den * Nat.pow 10 place.toNat)
  if d < Nat.pow 10 p then ⟨d, e⟩ else ⟨d / 10, e + 1⟩

end ReversePolish.Decimal
