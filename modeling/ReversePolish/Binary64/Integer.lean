import ReversePolish.Binary64.Nearest

/-! # Integers as binary64 numbers

An integer is read in limbs of 64 bits. Its leading 64 bits are rounded to the nearest number. What
stands behind them only breaks ties, and of every limb below the leading one it is only as many of
the lowest bits as the leading limb has. -/

namespace ReversePolish.Binary64

def limbBits : Nat := 64

/-- The number of limbs below the leading one. -/
def lowerLimbs (n : Nat) : Nat := n.log2 / limbBits

/-- The number of bits in the leading limb. -/
def leadingLimbBits (n : Nat) : Nat := n.log2 % limbBits + 1

/-- Whether some lower limb has a bit set among those that break ties. -/
def breaksTies (n : Nat) : Bool :=
  (List.range (lowerLimbs n)).any fun i => (n >>> (limbBits * i)) % (1 <<< leadingLimbBits n) ≠ 0

/-- The leading 64 bits of a number in their place, the last of them set where a bit behind them
breaks ties. -/
def leadingBits (n : Nat) : Nat :=
  let behind := n.log2 + 1 - limbBits
  let leading := n >>> behind
  (if breaksTies n then leading ||| 1 else leading) <<< behind

/-- The number for an integer. -/
def ofInt (n : Int) : Float := nearest (n < 0) (leadingBits n.natAbs) 1

end ReversePolish.Binary64
