import ReversePolish.Binary64.Nearest

/-! # From decimal notation to binary64 -/

namespace ReversePolish.Decimal

/-- Above this exponent every number but zero is beyond the largest finite one. -/
def greatestExponent : Int := 400

/-- The number nearest to `n * 10 ^ e`. A negative power of ten is below the same power of eight, so
the last bound leaves only numbers below `2 ^ (-1080)`, to which zero is nearest. -/
def toBinary64 (negative : Bool) (n : Nat) (e : Int) : Float :=
  if n = 0 then Binary64.zero negative
  else if greatestExponent < e then Binary64.infinity negative
  else if 0 ≤ e then Binary64.nearest negative (n * Nat.pow 10 e.toNat) 1
  else if (n.log2 : Int) + 1 + 3 * e < -1080 then Binary64.zero negative
  else Binary64.nearest negative n (Nat.pow 10 (-e).toNat)

end ReversePolish.Decimal
