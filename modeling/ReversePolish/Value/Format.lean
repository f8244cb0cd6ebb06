import ReversePolish.Decimal.General
import ReversePolish.Numeral
import ReversePolish.Value.Basic

/-! # How values are written -/

namespace ReversePolish

/-- What a value's text depends on besides the value. -/
structure Style where
  radix : Radix := .decimal
  /-- The significant digits of reals, unless left to `Style.defaultPrecision`. -/
  precision : Option Nat := none
  deriving DecidableEq, Repr

namespace Style

/-- Significant digits of reals where no style asks for others. -/
def defaultPrecision : Nat := 15

def digits (s : Style) : Nat := s.precision.getD defaultPrecision

/-- Takes from the fallback what is not set; a decimal radix counts as not set. -/
def orElse (s fallback : Style) : Style where
  radix := if s.radix = .decimal then fallback.radix else s.radix
  precision := s.precision.or fallback.precision

end Style

namespace Value

/-- Components in brackets, with a comma and a space between them. -/
def bracketed (parts : List String) : String := "[" ++ ", ".intercalate parts ++ "]"

/-- How a unit of that name is entered. -/
def unitText (name : String) : String := "_" ++ name

/-- The text of a value in the given style. -/
def format (style : Style) : Value → String
  | int n => String.ofList (Numeral.write style.radix n.toInt)
  | bigInt n => String.ofList (Numeral.write style.radix n)
  | real x => Decimal.general style.digits x
  | vector _ v => bracketed (v.toList.map (Decimal.general style.digits))
  | matrix _ m =>
    bracketed (m.toRows.map fun row => bracketed (row.map (Decimal.general style.digits)))
  | unit name => unitText name

end Value

end ReversePolish
