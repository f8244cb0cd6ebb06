/-! # Rounding quotients to whole numbers -/

namespace ReversePolish

/-- The quotient rounded to the nearest natural number, a half to the even neighbour. -/
def divHalfEven (num den : Nat) : Nat :=
  let q := num / den
  let r := num % den
  if 2 * r < den then q
  else if den < 2 * r then q + 1
  else q + q % 2

/-- The directions in which a number is taken to an integer. -/
inductive Rounding where
  | down
  | up
  | towardZero
  | halfAway
  deriving DecidableEq, Repr

/-- The integer for `num / den`, of a positive denominator. -/
def Rounding.quotient (num : Int) (den : Nat) : Rounding → Int
  | .down => num / den
  | .up => -((-num) / den)
  | .towardZero => num.tdiv den
  | .halfAway => num.sign * ((2 * num.natAbs + den) / (2 * den) : Nat)

/-- The quotient toward negative infinity, and its remainder: those of the quotient toward zero,
corrected where the remainder and the divisor differ in sign. -/
def flooredDivision (a b : Int) : Int × Int :=
  let q := a.tdiv b
  let r := a.tmod b
  if r ≠ 0 ∧ r.sign ≠ b.sign then (q - 1, r + b) else (q, r)

end ReversePolish
