import ReversePolish.Binary64.Integral
import ReversePolish.Operator.Arguments

/-! # Conversions between the ranks of scalars -/

namespace ReversePolish.Conversion

open Operator

/-- A scalar argument; other values are not expected. -/
def scalar (op : String) (f : Scalar → Except Error Value) (a : Value) : Except Error Value :=
  match a with
  | .scalar s => f s
  | other => .error (.internal (.operand op other.kind))

def toReal : Evaluation := fun _ => unary "real" <| scalar "real" fun s => .ok (.real s.toReal)

/-- Integers of either representation, and reals that are integers. -/
def toBigInt : Evaluation := fun _ => unary "bigint" <| scalar "bigint" fun
  | .int n => .ok (.bigInt n.toInt)
  | .bigInt n => .ok (.bigInt n)
  | .real x =>
    if Binary64.isIntegral x then .ok (.bigInt (Binary64.toInt .towardZero x))
    else .error (.domain "bigint" .notIntegral)

/-- A machine integer, if the number fits; reals are taken toward zero. -/
def toWord (n : Int) : Except Error Value :=
  match Word.ofInt? n with
  | some w => .ok (.int w)
  | none => .error (.integerOverflow "int")

def toInt : Evaluation := fun _ => unary "int" <| scalar "int" fun
  | .int n => .ok (.int n)
  | .bigInt n => toWord n
  | .real x =>
    if Binary64.isFinite x then toWord (Binary64.toInt .towardZero x)
    else .error (.domain "int" .notFinite)

def category : String := "Conversion"

def operators : List Operator := [
  { name := "real", category
    description := "Convert to a real"
    examples := ["7 real"]
    signatures := [[.scalar]], evaluate := toReal },
  { name := "bigint", category
    description := "Convert to an arbitrary precision integer"
    examples := ["42 bigint"]
    signatures := [[.scalar]], evaluate := toBigInt },
  { name := "int", category
    description := "Convert to a 64-bit integer, truncating reals"
    examples := ["3.9 int"]
    signatures := [[.scalar]], evaluate := toInt }]

end ReversePolish.Conversion
