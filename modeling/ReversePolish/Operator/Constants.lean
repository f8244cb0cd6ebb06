import ReversePolish.Measure.Families
import ReversePolish.Operator.Basic

/-! # Constants -/

namespace ReversePolish.Constants

/-- The base of the natural logarithm. -/
def e : Float := 2.718281828459045

/-- The same value whatever the arguments. -/
def constant (x : Float) : Evaluation := fun _ _ => .ok (.real x)

def category : String := "Constants"

def operators : List Operator := [
  { name := "pi", category
    description := "Ratio of a circle's circumference to its diameter"
    examples := ["pi"]
    signatures := [[]], evaluate := constant MeasureFamily.pi },
  { name := "e", category
    description := "Base of the natural logarithm"
    examples := ["e"]
    signatures := [[]], evaluate := constant e }]

end ReversePolish.Constants
