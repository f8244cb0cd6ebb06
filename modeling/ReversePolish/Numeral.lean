/-! # Integers in the four radices -/

namespace ReversePolish

/-- The radices in which integers are written. -/
inductive Radix where
  | decimal
  | hexadecimal
  | octal
  | binary
  deriving DecidableEq, Repr

namespace Radix

def all : List Radix := [.decimal, .hexadecimal, .octal, .binary]

def base : Radix → Nat
  | .decimal => 10
  | .hexadecimal => 16
  | .octal => 8
  | .binary => 2

/-- What stands between the sign and the digits. -/
def mark : Radix → List Char
  | .decimal => []
  | .hexadecimal => ['0', 'x']
  | .octal => ['0', 'o']
  | .binary => ['0', 'b']

/-- The radix of a mark that is not empty. -/
def ofMark? : List Char → Option Radix
  | ['0', 'x'] => some .hexadecimal
  | ['0', 'o'] => some .octal
  | ['0', 'b'] => some .binary
  | _ => none

end Radix

namespace Numeral

/-- The value of a digit, whose letters may be of either case. -/
def digitValue (c : Char) : Nat :=
  if c.isDigit then c.toNat - '0'.toNat else c.toUpper.toNat - 'A'.toNat + 10

def isDigitOf (base : Nat) (c : Char) : Bool :=
  c.isAlphanum && digitValue c < base

/-- The positional value of a list of digits. -/
def value (base : Nat) (digits : List Char) : Nat :=
  digits.foldl (fun n c => base * n + digitValue c) 0

/-- The digits of a number, with upper-case letters. -/
def digits (base n : Nat) : List Char := (Nat.toDigits base n).map Char.toUpper

/-- Sign, mark of the radix and digits. -/
def write (r : Radix) (n : Int) : List Char :=
  (if n < 0 then ['-'] else []) ++ r.mark ++ digits r.base n.natAbs

end Numeral

end ReversePolish
