import ReversePolish.Binary64.Nearest

/-! # Integers next to a binary64 number -/

namespace ReversePolish.Binary64

/-- The integer to which a finite number is taken. -/
def toInt (r : Rounding) (x : Float) : Int :=
  r.quotient (signedNumerator x) (denominator x)

/-- The machine integer to which a number is taken toward zero: the last one of the range where it
lies beyond, and zero for NaN. -/
def toInt64 (x : Float) : Int64 :=
  if x.isNaN then 0 else Int64.ofIntClamp (toInt .towardZero x)

def isIntegral (x : Float) : Bool :=
  isFinite x && numerator x % denominator x = 0

/-- The integer next to the number, as a number of the same sign; infinities and NaN stay. -/
def roundToIntegral (r : Rounding) (x : Float) : Float :=
  if isFinite x then nearest (isNegative x) (toInt r x).natAbs 1 else x

end ReversePolish.Binary64
