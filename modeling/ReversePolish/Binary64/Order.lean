import ReversePolish.Binary64.Basic

/-! # The total order of binary64 numbers

Here `-0` is below `0`, and NaN is beyond the infinity of its sign. -/

namespace ReversePolish.Binary64

/-- The place of a number in the total order. -/
def orderKey (x : Float) : Int :=
  if isNegative x then -1 - (magnitudeBits x : Int) else magnitudeBits x

end ReversePolish.Binary64
