import ReversePolish.Command
import ReversePolish.Numeral
import ReversePolish.Value.Kind

/-! # Errors by their causes -/

namespace ReversePolish

/-- Why a token is no part of the language. -/
inductive ParseReason where
  | closingBracket
  | openBracket
  | bracketInWord
  | unitName
  | unknownUnit
  | malformedNumber
  | digits (radix : Radix)
  | brackets
  | number
  | nesting
  | rowBrackets
  | unknownToken
  | notAlone
  | noSuchOperator
  deriving DecidableEq, Repr

/-- Why an operation is undefined for values of fitting kinds. -/
inductive DomainReason where
  | resultTooLarge
  | exponentTooLarge
  | fractionalPower
  | negativeArgument
  | outsideUnitInterval
  | notPositive
  | notIntegral
  | notFinite
  | zeroVector
  | singular
  | unknownUnit (name : String)
  | unlikeUnits (fromUnit fromFamily toUnit toFamily : String)
  deriving DecidableEq, Repr

/-- Dimensions that do not line up. -/
inductive ShapeReason where
  | operands (op : String) (a b : Kind)
  | rowCount (n : Nat)
  | vectorLiteral (text : String) (components : Nat)
  | matrixRow (rows components : Nat)
  | matrixLiteral (text : String) (rows : Nat)
  deriving DecidableEq, Repr

/-- What was checked before and cannot happen any more, such as arguments that the signature of the
operator excludes. -/
inductive Fault where
  | arity (op : String) (needed found : Nat)
  | notScalar (op : String) (k : Kind)
  | operands (op : String) (a b : Kind)
  | operand (op : String) (k : Kind)
  | notUnit (op : String) (k : Kind)
  | componentCount (n : Nat)
  | rowsNotVectors
  | offsetFamily (name : String)
  | baseNotInteger
  | operandsVanished
  /-- A step through the history was to act on the stack alone. -/
  | strayTravel (t : Travel)
  deriving DecidableEq, Repr

/-- Everything that can go wrong in the calculator. -/
inductive Error where
  | parse (token : String) (reason : ParseReason)
  | typeMismatch (op : String) (found : List Kind)
  | shapeMismatch (reason : ShapeReason)
  | divisionByZero
  | stackUnderflow (op : String) (needed available : Nat)
  | stackOverflow (limit : Nat)
  | integerOverflow (op : String)
  | domain (op : String) (reason : DomainReason)
  | unknownCommand (token : String)
  | duplicateOperatorName (name : String)
  | invalidSignature (op : String)
  | internal (fault : Fault)
  deriving DecidableEq, Repr

/-- The kinds of errors, without their particulars. -/
inductive ErrorKind where
  | parse
  | typeMismatch
  | shapeMismatch
  | divisionByZero
  | stackUnderflow
  | stackOverflow
  | integerOverflow
  | domain
  | unknownCommand
  | duplicateOperatorName
  | invalidSignature
  | internal
  deriving DecidableEq, Repr

namespace ErrorKind

def name : ErrorKind → String
  | parse => "ParseError"
  | typeMismatch => "TypeMismatch"
  | shapeMismatch => "ShapeMismatch"
  | divisionByZero => "DivisionByZero"
  | stackUnderflow => "StackUnderflow"
  | stackOverflow => "StackOverflow"
  | integerOverflow => "IntegerOverflow"
  | domain => "DomainError"
  | unknownCommand => "UnknownCommand"
  | duplicateOperatorName => "DuplicateOperatorName"
  | invalidSignature => "InvalidSignature"
  | internal => "UnreachableState"

/-- Whether errors of the kind leave no catalog to calculate with. -/
def isFatal (k : ErrorKind) : Bool := k = duplicateOperatorName || k = invalidSignature

end ErrorKind

def ParseReason.message : ParseReason → String
  | .closingBracket => "unbalanced ']'"
  | .openBracket => "unbalanced '['"
  | .bracketInWord => "brackets must start a separate token"
  | .unitName => "unit names are letters, digits, and '_'"
  | .unknownUnit => "unknown unit"
  | .malformedNumber => "malformed number"
  | .digits radix => s!"expected base-{radix.base} digits"
  | .brackets => "unbalanced brackets"
  | .number => "expected a number"
  | .nesting => "matrices nest at most two levels"
  | .rowBrackets => "matrix rows must be bracketed"
  | .unknownToken => "not a literal, operator, or command"
  | .notAlone => "must be the only token of its line"
  | .noSuchOperator => "no such operator"

def DomainReason.message : DomainReason → String
  | .resultTooLarge => "result too large"
  | .exponentTooLarge => "exponent is too large"
  | .fractionalPower => "negative base with fractional exponent"
  | .negativeArgument => "argument is negative"
  | .outsideUnitInterval => "argument outside [-1, 1]"
  | .notPositive => "argument must be positive"
  | .notIntegral => "value is not an integer"
  | .notFinite => "value is not finite"
  | .zeroVector => "the zero vector has no direction"
  | .singular => "matrix is singular"
  | .unknownUnit name => s!"unknown unit _{name}"
  | .unlikeUnits fromUnit fromFamily toUnit toFamily =>
    s!"cannot convert {fromUnit} ({fromFamily}) to {toUnit} ({toFamily})"

def ShapeReason.message : ShapeReason → String
  | .operands op a b => s!"'{op}' cannot combine {a.name} with {b.name}"
  | .rowCount n => s!"{n} rows do not form a square matrix"
  | .vectorLiteral text n => s!"vectors have 2 to 4 components, '{text}' has {n}"
  | .matrixRow rows n =>
    s!"a {rows}-row matrix needs {rows} components per row, found a row of {n}"
  | .matrixLiteral text n => s!"matrices are 2x2 to 4x4, '{text}' is {n}x{n}"

def Fault.message : Fault → String
  | .arity op needed found => s!"'{op}' expected {needed} argument(s), got {found}"
  | .notScalar op k => s!"'{op}' received non-scalar {k.name}"
  | .operands op a b => s!"'{op}' received {a.name} and {b.name}"
  | .operand op k => s!"'{op}' received {k.name}"
  | .notUnit op k => s!"'{op}' received {k.name} as a unit"
  | .componentCount n => s!"cannot build a vector of {n}"
  | .rowsNotVectors => "matrix rows must be vectors"
  | .offsetFamily name => s!"{name} units convert vectors but have an offset"
  | .baseNotInteger => "pow base is not an integer"
  | .operandsVanished => "swap operands vanished"
  | .strayTravel t => s!"{t.label} reached the stack command runner"

namespace Error

/-- The kinds of the arguments of an operator, for a message. -/
def kindList : List Kind → String
  | [] => "no arguments"
  | kinds => ", ".intercalate (kinds.map Kind.name)

/-- The text that is shown for an error. -/
def message : Error → String
  | parse token reason => s!"parse error at '{token}': {reason.message}"
  | typeMismatch op found => s!"'{op}' cannot be applied to {kindList found}"
  | shapeMismatch reason => s!"shape mismatch: {reason.message}"
  | divisionByZero => "division by zero"
  | stackUnderflow op needed available =>
    s!"'{op}' needs {needed} argument(s), stack has {available}"
  | stackOverflow limit => s!"stack is full ({limit} items)"
  | integerOverflow op => s!"integer overflow in '{op}'"
  | domain op reason => s!"'{op}': {reason.message}"
  | unknownCommand token => s!"unknown command '{token}'"
  | duplicateOperatorName name => s!"operator name '{name}' is already registered"
  | invalidSignature op => s!"operator '{op}' has an invalid signature list"
  | internal fault => s!"internal error: {fault.message}"

/-- The kind of an error. -/
def kind : Error → ErrorKind
  | parse .. => .parse
  | typeMismatch .. => .typeMismatch
  | shapeMismatch .. => .shapeMismatch
  | divisionByZero => .divisionByZero
  | stackUnderflow .. => .stackUnderflow
  | stackOverflow .. => .stackOverflow
  | integerOverflow .. => .integerOverflow
  | domain .. => .domain
  | unknownCommand .. => .unknownCommand
  | duplicateOperatorName .. => .duplicateOperatorName
  | invalidSignature .. => .invalidSignature
  | internal .. => .internal

def isFatal (e : Error) : Bool := e.kind.isFatal

end Error

end ReversePolish
