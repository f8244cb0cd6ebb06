import ReversePolish.Literal.Number
import ReversePolish.Text.Blank

/-! # Vector and matrix literals

A vector is a list of number literals in brackets. A matrix is a list of such lists in brackets, as
long as each of its rows. -/

namespace ReversePolish.Literal

/-- The characters between the parts of a bracketed literal. -/
def isSeparator (c : Char) : Bool := c = ',' || Text.isBlank c

/-- What the outermost brackets enclose. -/
def inside? : List Char → Option (List Char)
  | '[' :: rest => if rest.getLast? = some ']' then some rest.dropLast else none
  | _ => none

/-- What the outermost brackets enclose, or a complaint that one of them is missing. -/
def inside (text : List Char) : Except Error (List Char) :=
  match inside? text with
  | some body => .ok body
  | none => .error (.parse (String.ofList text) .brackets)

/-- The component that a number literal stands for. -/
def component (part : List Char) : Except Error Float := do
  match ← number part with
  | some { value := .scalar s, .. } => .ok s.toReal
  | _ => .error (.parse (String.ofList part) .number)

def components (body : List Char) : Except Error (List Float) :=
  (Text.fields isSeparator body).mapM component

/-- The bracketed rows of a matrix. The first argument holds, last character first, what has been
read of a row that is still open. -/
def splitRows : Option (List Char) → List Char → Except ParseReason (List (List Char))
  | none, [] => .ok []
  | some _, [] => .error .openBracket
  | none, c :: cs =>
    if c = '[' then splitRows (some [c]) cs
    else if c = ']' then .error .closingBracket
    else if isSeparator c then splitRows none cs
    else .error .rowBrackets
  | some row, c :: cs =>
    if c = '[' then .error .nesting
    else if c = ']' then (splitRows none cs).map ((c :: row).reverse :: ·)
    else splitRows (some (c :: row)) cs

/-- The components of a bracketed row. -/
def rowComponents (row : List Char) : Except Error (List Float) := do components (← inside row)

/-- A vector of two to four components. -/
def vector (text : String) (body : List Char) : Except Error Literal := do
  let xs ← components body
  match Value.ofComponents? xs with
  | some value => .ok { value }
  | none => .error (.shapeMismatch (.vectorLiteral text xs.length))

/-- A square matrix of two to four rows. -/
def matrix (text : String) (body : List Char) : Except Error Literal := do
  let rows ← (splitRows none body).mapError (.parse text)
  let rows ← rows.mapM rowComponents
  match rows.find? (·.length ≠ rows.length) with
  | some row => .error (.shapeMismatch (.matrixRow rows.length row.length))
  | none =>
    match Value.ofRows? rows with
    | some value => .ok { value }
    | none => .error (.shapeMismatch (.matrixLiteral text rows.length))

/-- Reads a literal that begins with a bracket. -/
def bracketed (text : List Char) : Except Error Literal := do
  let body := Text.trim (← inside text)
  if body.head? = some '[' then matrix (String.ofList text) body
  else vector (String.ofList text) body

end ReversePolish.Literal
