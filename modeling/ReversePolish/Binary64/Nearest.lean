import ReversePolish.Rounding
import ReversePolish.Binary64.Basic

/-! # The binary64 number nearest to a fraction

Ties go to the even significand, and what lies beyond the largest finite number by half a last
place or more becomes infinite. -/

namespace ReversePolish.Binary64

/-- The exponent of the last place around `num / den`: the quotient over this power of two is below
`2 ^ 53`, and at least `2 ^ 52` unless the exponent is the least one. -/
def lastPlace (num den : Nat) : Int :=
  let q : Int := (num.log2 : Int) - den.log2 - (fractionBits + 1 : Nat)
  let inRange := num <<< (-q).toNat < den <<< (q.toNat + fractionBits + 1)
  max leastExponent (if inRange then q else q + 1)

/-- The quotient in units of `2 ^ q`, rounded. -/
def roundedSignificand (num den : Nat) (q : Int) : Nat :=
  divHalfEven (num <<< (-q).toNat) (den <<< q.toNat)

/-- The nearest number to `num / den`, with the given sign. The significand `m` of exponent `q`
stands at the bits `(q + 1074) * 2 ^ 52 + m`, also where `m` has been rounded up to the next power
of two. -/
def nearest (negative : Bool) (num den : Nat) : Float :=
  if num = 0 then zero negative
  else
    let q := lastPlace num den
    let bits := (q - leastExponent).toNat <<< fractionBits + roundedSignificand num den q
    ofMagnitudeBits negative (min bits infinityBits)

end ReversePolish.Binary64
