import ReversePolish.Decimal.Reading
import ReversePolish.Error
import ReversePolish.Literal.Basic

/-! # Number literals

An integer has digits, in another radix than ten after its mark. A real has digits with a point
among them or an exponent after them. A minus sign may stand in front of either. -/

namespace ReversePolish.Literal

/-- Whether a text without its sign begins like a number. -/
def looksNumeric : List Char → Bool
  | '.' :: c :: _ => c.isDigit
  | c :: _ => c.isDigit
  | [] => false

/-- The sign of a literal and the text behind it. -/
def splitSign : List Char → Bool × List Char
  | '-' :: body => (true, body)
  | body => (false, body)

/-- The radix of an integer literal and the text behind its mark. -/
def splitMark (body : List Char) : Radix × List Char :=
  match Radix.ofMark? (body.take 2) with
  | some radix => (radix, body.drop 2)
  | none => (.decimal, body)

/-- The parts of a real without its sign. -/
structure RealParts where
  whole : List Char
  fraction : List Char
  exponent : Int

namespace RealParts

def isExponentMark (c : Char) : Bool := c = 'e' || c = 'E'

/-- The exponent behind its mark. -/
def exponent? (text : List Char) : Option Int :=
  let (negative, digits) :=
    match text with
    | '+' :: rest => (false, rest)
    | '-' :: rest => (true, rest)
    | rest => (false, rest)
  if digits.isEmpty || !digits.all Char.isDigit then none
  else
    let n : Int := Numeral.value 10 digits
    some (if negative then -n else n)

/-- Digits, of which a point may stand between, before or behind some, and an exponent; the point
or the exponent has to be there. -/
def ofText? (body : List Char) : Option RealParts := do
  let mantissa := body.takeWhile (!isExponentMark ·)
  let power := body.dropWhile (!isExponentMark ·)
  let whole := mantissa.takeWhile (· ≠ '.')
  let point := mantissa.dropWhile (· ≠ '.')
  let fraction := point.drop 1
  guard (whole.all Char.isDigit && fraction.all Char.isDigit)
  guard (!(whole ++ fraction).isEmpty && !(point ++ power).isEmpty)
  let exponent ← if power.isEmpty then some 0 else exponent? (power.drop 1)
  some ⟨whole, fraction, exponent⟩

/-- The nearest binary64 number. -/
def toBinary64 (negative : Bool) (p : RealParts) : Float :=
  Decimal.toBinary64 negative (Numeral.value 10 (p.whole ++ p.fraction))
    (p.exponent - p.fraction.length)

end RealParts

/-- An integer literal: a machine integer if it fits. -/
def ofDigits (radix : Radix) (negative : Bool) (digits : List Char) : Literal :=
  let n : Int := Numeral.value radix.base digits
  { value := .ofInt (if negative then -n else n), style := { radix } }

/-- Reads a number literal; there is none where the text does not begin like one. -/
def number (text : List Char) : Except Error (Option Literal) :=
  let (negative, body) := splitSign text
  let (radix, digits) := splitMark body
  let refuse (reason : ParseReason) := .error (.parse (String.ofList text) reason)
  if !looksNumeric body then .ok none
  else if radix ≠ .decimal then
    if digits.isEmpty || !digits.all (Numeral.isDigitOf radix.base) then refuse (.digits radix)
    else .ok (some (ofDigits radix negative digits))
  else if body.all Char.isDigit then .ok (some (ofDigits .decimal negative body))
  else
    match RealParts.ofText? body with
    | some parts => .ok (some { value := .real (parts.toBinary64 negative) })
    | none => refuse .malformedNumber

end ReversePolish.Literal
