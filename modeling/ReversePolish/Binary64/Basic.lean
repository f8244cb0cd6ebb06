/-! # The exact value of a binary64 number -/

namespace ReversePolish.Binary64

/-- The number of fraction bits. -/
def fractionBits : Nat := 52

/-- The exponent of the last place of the smallest numbers. -/
def leastExponent : Int := -1074

/-- The bits of positive infinity: the largest exponent field above an empty fraction. -/
def infinityBits : Nat := 2047 <<< fractionBits

/-- The bits below the sign. -/
def magnitudeBits (x : Float) : Nat := x.toBits.toNat % (1 <<< 63)

/-- Whether the sign bit is set; true of `-0`. -/
def isNegative (x : Float) : Bool := 1 <<< 63 ≤ x.toBits.toNat

def isFinite (x : Float) : Bool := magnitudeBits x < infinityBits

/-- The number of the given sign and magnitude bits. -/
def ofMagnitudeBits (negative : Bool) (bits : Nat) : Float :=
  Float.ofBits (UInt64.ofNat (bits + if negative then 1 <<< 63 else 0))

def zero (negative : Bool) : Float := ofMagnitudeBits negative 0

def infinity (negative : Bool) : Float := ofMagnitudeBits negative infinityBits

/-- The integer `m` of the absolute value `m * 2 ^ q`. -/
def significand (x : Float) : Nat :=
  let bits := magnitudeBits x
  if bits < 1 <<< fractionBits then bits else bits % (1 <<< fractionBits) + 1 <<< fractionBits

/-- The exponent `q` of the absolute value `m * 2 ^ q`. -/
def exponent (x : Float) : Int :=
  max 1 (magnitudeBits x >>> fractionBits : Nat) + (leastExponent - 1)

/-- The numerator of the absolute value over `denominator x`. -/
def numerator (x : Float) : Nat := significand x <<< (exponent x).toNat

/-- A power of two. -/
def denominator (x : Float) : Nat := 1 <<< (-exponent x).toNat

/-- The numerator with the sign of the number. -/
def signedNumerator (x : Float) : Int :=
  if isNegative x then -numerator x else numerator x

end ReversePolish.Binary64
