import ReversePolish.Binary64.Integral
import ReversePolish.Operator.Arguments

/-! # Elementary functions and rounding -/

namespace ReversePolish.Elementary

open Operator

/-- A function of one real. -/
def real (op : String) (f : Float → Float) : Evaluation := fun _ => unary op fun a => do
  .ok (.real (f (← realArg op a)))

/-- A function of one real that is defined on a part of the line. -/
def realWhere (op : String) (defined : Float → Bool) (reason : DomainReason)
    (f : Float → Float) : Evaluation := fun _ => unary op fun a => do
  let x ← realArg op a
  if defined x then .ok (.real (f x)) else .error (.domain op reason)

def inUnitInterval (x : Float) : Bool := -1 ≤ x && x ≤ 1

def isPositive (x : Float) : Bool := 0 < x

/-- The angle of a point, given its ordinate first. -/
def angle : Evaluation := fun _ => binary "atan2" fun y x => do
  .ok (.real (Float.atan2 (← realArg "atan2" y) (← realArg "atan2" x)))

/-- Rounds reals and leaves integers alone. -/
def rounding (op : String) (r : Rounding) : Evaluation := fun _ => unary op fun
  | .int n => .ok (.int n)
  | .bigInt n => .ok (.bigInt n)
  | other => do .ok (.real (Binary64.roundToIntegral r (← realArg op other)))

def scalars : List Signature := [[.scalar]]

def trigonometry : String := "Trigonometry"

def exponential : String := "Exponential"

def roundings : String := "Rounding"

def operators : List Operator := [
  { name := "sin", category := trigonometry
    description := "Sine of an angle in radians"
    examples := ["pi 2 / sin"]
    signatures := scalars, evaluate := real "sin" Float.sin },
  { name := "cos", category := trigonometry
    description := "Cosine of an angle in radians"
    examples := ["0 cos"]
    signatures := scalars, evaluate := real "cos" Float.cos },
  { name := "tan", category := trigonometry
    description := "Tangent of an angle in radians"
    signatures := scalars, evaluate := real "tan" Float.tan },
  { name := "asin", category := trigonometry
    description := "Arc sine, in radians"
    examples := ["1 asin"]
    signatures := scalars
    evaluate := realWhere "asin" inUnitInterval .outsideUnitInterval Float.asin },
  { name := "acos", category := trigonometry
    description := "Arc cosine, in radians"
    signatures := scalars
    evaluate := realWhere "acos" inUnitInterval .outsideUnitInterval Float.acos },
  { name := "atan", category := trigonometry
    description := "Arc tangent, in radians"
    signatures := scalars, evaluate := real "atan" Float.atan },
  { name := "atan2", category := trigonometry
    description := "Angle of the point (x, y); takes y then x"
    examples := ["1 1 atan2"]
    signatures := [[.scalar, .scalar]], evaluate := angle },
  { name := "exp", category := exponential
    description := "e raised to a power"
    examples := ["1 exp"]
    signatures := scalars, evaluate := real "exp" Float.exp },
  { name := "ln", category := exponential
    description := "Natural logarithm"
    examples := ["e ln"]
    signatures := scalars, evaluate := realWhere "ln" isPositive .notPositive Float.log },
  { name := "log", category := exponential
    description := "Base-10 logarithm"
    examples := ["1000 log"]
    signatures := scalars, evaluate := realWhere "log" isPositive .notPositive Float.log10 },
  { name := "floor", category := roundings
    description := "Round toward negative infinity"
    examples := ["2.7 floor"]
    signatures := scalars, evaluate := rounding "floor" .down },
  { name := "ceil", category := roundings
    description := "Round toward positive infinity"
    examples := ["2.1 ceil"]
    signatures := scalars, evaluate := rounding "ceil" .up },
  { name := "round", category := roundings
    description := "Round to nearest, halves away from zero"
    examples := ["2.5 round"]
    signatures := scalars, evaluate := rounding "round" .halfAway },
  { name := "trunc", category := roundings
    description := "Round toward zero"
    examples := ["-2.7 trunc"]
    signatures := scalars, evaluate := rounding "trunc" .towardZero }]

end ReversePolish.Elementary
