import ReversePolish.Binary64.Basic
import ReversePolish.Decimal.Significant

/-! # The general text of a binary64 number

Positional for moderate exponents and scientific beyond, without trailing zeros in the fraction. -/

namespace ReversePolish.Decimal

/-- The decisions of a general number text. -/
structure GeneralFormat where
  leastPositional : Int
  exponentMark : Char
  exponentWidth : Nat
  point : Char
  notANumber : String
  infinite : String

/-- Exponents from `-4` up to the precision are positional, and others have two digits or more and
a sign. -/
def generalFormat : GeneralFormat where
  leastPositional := -4
  exponentMark := 'e'
  exponentWidth := 2
  point := '.'
  notANumber := "nan"
  infinite := "inf"

/-- A fraction rounded to the given count of decimal places, a tie to the even neighbour: the digits
before and after the point. -/
def positional (places num den : Nat) : List Char × List Char :=
  let digits := Nat.toDigits 10 (divHalfEven (num * Nat.pow 10 places) den)
  let padded := List.replicate (places + 1 - digits.length) '0' ++ digits
  padded.splitAt (padded.length - places)

namespace GeneralFormat

/-- Digits before and after the point; zeros at the end of the fraction are dropped, and with the
last of them the point. -/
def pointed (f : GeneralFormat) (whole fraction : List Char) : List Char :=
  match (fraction.reverse.dropWhile (· = '0')).reverse with
  | [] => whole
  | kept => whole ++ f.point :: kept

/-- The decimal digits of an exponent, with sign and zeros in front. -/
def exponentText (f : GeneralFormat) (e : Int) : List Char :=
  let digits := Nat.toDigits 10 e.natAbs
  f.exponentMark :: (if e < 0 then '-' else '+') ::
    (List.replicate (f.exponentWidth - digits.length) '0' ++ digits)

/-- A positive fraction with `p` significant digits. The positional text rounds it once more, to the
places that the rounded exponent leaves behind the point. -/
def magnitude (f : GeneralFormat) (p num den : Nat) : List Char :=
  let s := round p num den
  if s.exponent < f.leastPositional || p ≤ s.exponent then
    let digits := Nat.toDigits 10 s.digits
    f.pointed (digits.take 1) (digits.drop 1) ++ f.exponentText s.exponent
  else
    let (whole, fraction) := positional (p - 1 - s.exponent).toNat num den
    f.pointed whole fraction

/-- The text with `precision` significant digits, at least one. -/
def write (f : GeneralFormat) (precision : Nat) (x : Float) : String :=
  if x.isNaN then f.notANumber
  else
    let sign := if Binary64.isNegative x then ['-'] else []
    let p := max 1 precision
    String.ofList <| sign ++
      if !Binary64.isFinite x then f.infinite.toList
      else if Binary64.significand x = 0 then ['0']
      else f.magnitude p (Binary64.numerator x) (Binary64.denominator x)

end GeneralFormat

/-- The general text of a number with the given count of significant digits. -/
def general (precision : Nat) (x : Float) : String := generalFormat.write precision x

end ReversePolish.Decimal
