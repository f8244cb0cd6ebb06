import ReversePolish.Binary64.Integral
import ReversePolish.Operator.Shaped

/-! # Arithmetic

Integers are computed exactly. A result of machine integers is again one if it fits; what happens
otherwise is for the promotion to say. -/

namespace ReversePolish.Arithmetic

open Operator

/-- The exact result of an operation on machine integers that is none itself. -/
def overflowed (op : String) (limits : Limits) (n : Int) : Except Error Value :=
  match limits.promotion with
  | .onOverflow => .ok (.bigInt n)
  | .explicit => .error (.integerOverflow op)

/-- The exact result of an operation on machine integers. -/
def settle (op : String) (limits : Limits) (n : Int) : Except Error Value :=
  match Word.ofInt? n with
  | some w => .ok (.int w)
  | none => overflowed op limits n

/-- An operation on scalars of one rank, that of machine integers with no result on overflow. -/
def ranked (op : String) (limits : Limits) (checked : Word → Word → Option Word)
    (exact : Int → Int → Int) (approximate : Float → Float → Float) :
    Scalar.Pair → Except Error Value
  | .int a b =>
    match checked a b with
    | some w => .ok (.int w)
    | none => overflowed op limits (exact a.toInt b.toInt)
  | .bigInt a b => .ok (.bigInt (exact a b))
  | .real x y => .ok (.real (approximate x y))

/-- The length of the absolute value in binary. -/
def bitLength (n : Int) : Nat := if n = 0 then 0 else n.natAbs.log2 + 1

/-- Refuses an integer result of more bits than allowed. -/
def checkBits (op : String) (limits : Limits) (bits : Nat) : Except Error Unit :=
  if limits.maxIntegerBits < bits then .error (.domain op .resultTooLarge) else .ok ()

/-- Refuses a zero of any rank. -/
def checkDivisor (b : Value) : Except Error Unit :=
  if b.isZeroScalar then .error .divisionByZero else .ok ()

/-! ## Sums and products -/

def addValues (limits : Limits) (a b : Value) : Except Error Value :=
  if a.isScalar then do ranked "add" limits (Word.checked (· + ·)) (· + ·) (· + ·) (← scalarPair "add" a b)
  else addShaped "add" a b

def add : Evaluation := fun limits => binary "add" (addValues limits)

def subValues (limits : Limits) (a b : Value) : Except Error Value :=
  if a.isScalar then do ranked "sub" limits (Word.checked (· - ·)) (· - ·) (· - ·) (← scalarPair "sub" a b)
  else subShaped "sub" a b

def sub : Evaluation := fun limits => binary "sub" (subValues limits)

/-- Refuses a product of two integers whose lengths add up to more bits than allowed. -/
def checkProduct (limits : Limits) (a b : Value) : Except Error Unit :=
  match a.integer?, b.integer? with
  | some m, some n => checkBits "mul" limits (bitLength m + bitLength n)
  | _, _ => .ok ()

def mulValues (limits : Limits) (a b : Value) : Except Error Value :=
  if a.isScalar && b.isScalar then do
    checkProduct limits a b
    ranked "mul" limits (Word.checked (· * ·)) (· * ·) (· * ·) (← scalarPair "mul" a b)
  else mulShaped "mul" a b

def mul : Evaluation := fun limits => binary "mul" (mulValues limits)

def square : Evaluation := fun limits => unary "sq" fun a => mulValues limits a a

/-! ## Division -/

/-- An exact quotient as an integer, and any other as the quotient of the reals for the two. -/
def quotient (limits : Limits) : Scalar.Pair → Except Error Value
  | .int a b =>
    if a % b = 0 then
      match Word.quotient? a b with
      | some q => .ok (.int q)
      | none => overflowed "div" limits (a.toInt.tdiv b.toInt)
    else .ok (.real (Binary64.ofInt a.toInt / Binary64.ofInt b.toInt))
  | .bigInt a b =>
    if a.tmod b = 0 then .ok (.bigInt (a.tdiv b))
    else .ok (.real (Binary64.ofInt a / Binary64.ofInt b))
  | .real x y => .ok (.real (x / y))

/-- A vector or matrix is divided by multiplying with the reciprocal. -/
def divValues (limits : Limits) (a b : Value) : Except Error Value := do
  checkDivisor b
  if a.isScalar then quotient limits (← scalarPair "div" a b)
  else scaleShaped "div" a (1 / (← realArg "div" b))

def div : Evaluation := fun limits => binary "div" (divValues limits)

def inv : Evaluation := fun limits => unary "inv" fun a => divValues limits (.int 1) a

def floor (x : Float) : Float := Binary64.roundToIntegral .down x

def floorDiv : Evaluation := fun limits => binary "idiv" fun a b => do
  checkDivisor b
  ranked "idiv" limits (fun m n => (Word.flooredDivision? m n).map Prod.fst)
    (fun m n => (flooredDivision m n).1) (fun x y => floor (x / y)) (← scalarPair "idiv" a b)

/-- Where the quotient of machine integers is none, the remainder is zero. -/
def floorMod : Evaluation := fun limits => binary "mod" fun a b => do
  checkDivisor b
  ranked "mod" limits (fun m n => some (((Word.flooredDivision? m n).map Prod.snd).getD 0))
    (fun m n => (flooredDivision m n).2) (fun x y => x - y * floor (x / y))
    (← scalarPair "mod" a b)

/-! ## Sign -/

def neg : Evaluation := fun limits => unary "neg" fun
  | .int n => settle "neg" limits (-n.toInt)
  | .bigInt n => .ok (.bigInt (-n))
  | .real x => .ok (.real (-x))
  | other => negShaped other

def abs : Evaluation := fun limits => unary "abs" fun
  | .int n => settle "abs" limits n.toInt.natAbs
  | .bigInt n => .ok (.bigInt n.natAbs)
  | other => do .ok (.real (← realArg "abs" other).abs)

/-- Zeros and NaN stay as they are. -/
def signOfReal (x : Float) : Float :=
  if x == 0 || x.isNaN then x else if x < 0 then -1 else 1

def sign : Evaluation := fun _ => unary "sign" fun
  | .int n => .ok (.int (Int64.ofInt n.toInt.sign))
  | .bigInt n => .ok (.int (Int64.ofInt n.sign))
  | other => do .ok (.real (signOfReal (← realArg "sign" other)))

/-! ## Powers and roots -/

/-- Integer exponents from this one on are refused. -/
def exponentBound : Nat := UInt32.size

/-- The power of reals, where it is defined. -/
def realPower (base exponent : Value) : Except Error Value := do
  let b ← realArg "pow" base
  let e ← realArg "pow" exponent
  if b == 0 && e < 0 then .error .divisionByZero
  else
    let power := b.pow e
    if power.isNaN && !b.isNaN && !e.isNaN then .error (.domain "pow" .fractionalPower)
    else .ok (.real power)

/-- The exact power, unless so many bits are sure that it has more than allowed. -/
def integerPower (limits : Limits) (base : Scalar) (b : Int) (e : Nat) : Except Error Value :=
  if exponentBound ≤ e then .error (.domain "pow" .exponentTooLarge)
  else do
    checkBits "pow" limits ((bitLength b - 1) * e)
    match base with
    | .int _ => settle "pow" limits (b.pow e)
    | _ =>
      match base.integer? with
      | some b => .ok (.bigInt (b.pow e))
      | none => .error (.internal .baseNotInteger)

def powValues (limits : Limits) (base exponent : Value) : Except Error Value :=
  match base, base.integer?, exponent, exponent.integer? with
  | .scalar s, some b, _, some e =>
    if (Word.ofInt? e).isNone then .error (.domain "pow" .exponentTooLarge)
    else if 0 ≤ e then integerPower limits s b e.toNat
    else realPower base exponent
  | _, _, _, _ => realPower base exponent

def pow : Evaluation := fun limits => binary "pow" (powValues limits)

/-- The root of a perfect square. -/
def exactRoot? (n : Int) : Option Nat :=
  let root := n.toNat.sqrt
  if (root * root : Nat) = n then some root else none

/-- The root of a perfect square, sought next to the root that the reals have. -/
def wordRoot? (n : Word) : Option Word :=
  (Word.nearby (Binary64.toInt64 (Binary64.ofInt n.toInt).sqrt)).find? fun r =>
    Word.checked (· * ·) r r = some n

/-- The root of an integer, exact where one is found. -/
def integerRoot (n : Int) (root? : Option Value) : Except Error Value :=
  if n < 0 then .error (.domain "sqrt" .negativeArgument)
  else
    match root? with
    | some root => .ok root
    | none => .ok (.real (Binary64.ofInt n).sqrt)

def sqrt : Evaluation := fun _ => unary "sqrt" fun
  | .int n => integerRoot n.toInt ((wordRoot? n).map .int)
  | .bigInt n => integerRoot n ((exactRoot? n).map fun root => .bigInt root)
  | other => do
    let x ← realArg "sqrt" other
    if x < 0 then .error (.domain "sqrt" .negativeArgument) else .ok (.real x.sqrt)

/-! ## Extremes -/

/-- The first argument unless the second is less. -/
def min : Evaluation := fun _ => binary "min" fun a b => do
  .ok (if (← scalarPair "min" a b).compare = .gt then b else a)

/-- The first argument unless the second is greater. -/
def max : Evaluation := fun _ => binary "max" fun a b => do
  .ok (if (← scalarPair "max" a b).compare = .lt then b else a)

/-! ## The operators -/

def category : String := "Arithmetic"

def scalars : Signature := [.scalar]

def scalarPairs : Signature := [.scalar, .scalar]

/-- Two arguments of one shape. -/
def alike : List Signature := [scalarPairs, [.vector, .vector], [.matrix, .matrix]]

def operators : List Operator := [
  { name := "add", aliases := ["+"], category
    description := "Sum of two values"
    examples := ["3 4 add", "[1, 2] [3, 4] +"]
    signatures := alike, evaluate := add },
  { name := "sub", aliases := ["-"], category
    description := "Difference of two values"
    examples := ["10 4 sub"]
    signatures := alike, evaluate := sub },
  { name := "mul", aliases := ["*"], category
    description := "Product of two values"
    examples := ["6 7 mul", "2 [1, 2, 3] *"]
    signatures := [scalarPairs, [.scalar, .vector], [.vector, .scalar], [.scalar, .matrix],
      [.matrix, .scalar], [.matrix, .matrix], [.matrix, .vector]]
    evaluate := mul },
  { name := "div", aliases := ["/"], category
    description := "Quotient; exact for integers that divide evenly"
    examples := ["4 2 div", "5 2 /"]
    signatures := [scalarPairs, [.vector, .scalar], [.matrix, .scalar]], evaluate := div },
  { name := "idiv", category
    description := "Floored integer division"
    examples := ["7 2 idiv", "-7 2 idiv"]
    signatures := [scalarPairs], evaluate := floorDiv },
  { name := "mod", aliases := ["%"], category
    description := "Floored remainder"
    examples := ["7 3 mod", "-7 3 %"]
    signatures := [scalarPairs], evaluate := floorMod },
  { name := "neg", category
    description := "Negate"
    examples := ["5 neg"]
    signatures := [scalars, [.vector], [.matrix]], evaluate := neg },
  { name := "abs", category
    description := "Absolute value"
    examples := ["-5 abs"]
    signatures := [scalars], evaluate := abs },
  { name := "pow", aliases := ["^"], category
    description := "Raise to a power"
    examples := ["2 10 pow", "2 0.5 ^"]
    signatures := [scalarPairs], evaluate := pow },
  { name := "sq", category
    description := "Square"
    examples := ["12 sq"]
    signatures := [scalars, [.matrix]], evaluate := square },
  { name := "sqrt", category
    description := "Square root"
    examples := ["16 sqrt", "2 sqrt"]
    signatures := [scalars], evaluate := sqrt },
  { name := "inv", category
    description := "Reciprocal"
    examples := ["4 inv"]
    signatures := [scalars], evaluate := inv },
  { name := "min", category
    description := "Smaller of two values"
    examples := ["3 7 min"]
    signatures := [scalarPairs], evaluate := min },
  { name := "max", category
    description := "Larger of two values"
    examples := ["3 7 max"]
    signatures := [scalarPairs], evaluate := max },
  { name := "sign", category
    description := "Sign: -1, 0, or 1"
    examples := ["-12 sign"]
    signatures := [scalars], evaluate := sign }]

end ReversePolish.Arithmetic
