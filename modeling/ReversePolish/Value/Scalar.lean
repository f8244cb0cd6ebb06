import ReversePolish.Binary64.Integer
import ReversePolish.Binary64.Order
import ReversePolish.Value.Word

/-! # Scalars and their common rank -/

namespace ReversePolish

/-- A number on the stack: a machine integer, an integer of any size, or a binary64 number. -/
inductive Scalar where
  | int (n : Word)
  | bigInt (n : Int)
  | real (x : Float)

namespace Scalar

/-- The value of an integer in either representation. -/
def integer? : Scalar → Option Int
  | .int n => some n.toInt
  | .bigInt n => some n
  | .real _ => none

/-- The value as a word, if it is an integer that fits. -/
def word? (s : Scalar) : Option Word := s.integer?.bind Word.ofInt?

def toReal : Scalar → Float
  | .int n => Binary64.ofInt n.toInt
  | .bigInt n => Binary64.ofInt n
  | .real x => x

def isZero : Scalar → Bool
  | .int n => n = 0
  | .bigInt n => n = 0
  | .real x => x == 0

/-- Two scalars of one rank. -/
inductive Pair where
  | int (a b : Word)
  | bigInt (a b : Int)
  | real (x y : Float)

/-- Takes the lower of two scalars to the rank of the higher one: machine integers to integers of
any size, and integers to reals. -/
def promote : Scalar → Scalar → Pair
  | .int a, .int b => .int a b
  | .int a, .bigInt b => .bigInt a.toInt b
  | .bigInt a, .int b => .bigInt a b.toInt
  | .bigInt a, .bigInt b => .bigInt a b
  | .real x, b => .real x b.toReal
  | a, .real y => .real a.toReal y

namespace Pair

/-- Equality after promotion; NaN equals nothing. -/
def equal : Pair → Bool
  | .int a b => a = b
  | .bigInt a b => a = b
  | .real x y => x == y

/-- The order of integers, or the total order of reals. Every NaN counts as positive here, and so is
greater than all numbers: the sign that a NaN may carry, and that would take it below all numbers,
is not kept. -/
def compare : Pair → Ordering
  | .int a b => Ord.compare a.toInt b.toInt
  | .bigInt a b => Ord.compare a b
  | .real x y => Ord.compare (Binary64.orderKey x) (Binary64.orderKey y)

end Pair

instance : BEq Scalar where
  beq a b := (promote a b).equal

end Scalar

end ReversePolish
