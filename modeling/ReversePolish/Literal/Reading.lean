import ReversePolish.Literal.Bracket
import ReversePolish.Measure.Families
import ReversePolish.Text.Alphanumeric

/-! # Reading literals -/

namespace ReversePolish.Literal

/-- A unit of the catalog, behind its underscore. -/
def unit (text : List Char) (name : List Char) : Except Error Literal :=
  let refuse (reason : ParseReason) := .error (.parse (String.ofList text) reason)
  if name.isEmpty || !name.all (fun c => Text.isAlphanumeric c || c = '_') then refuse .unitName
  else if (MeasureFamily.lookup? (String.ofList name)).isNone then refuse .unknownUnit
  else .ok { value := .unit (String.ofList name) }

/-- Reads a literal. A text that does not begin like one is left to other readings; one that
does, but goes on otherwise, is an error. -/
def read (text : String) : Except Error (Option Literal) :=
  match text.toList with
  | '[' :: cs => (bracketed ('[' :: cs)).map some
  | '_' :: name => (unit ('_' :: name) name).map some
  | cs => number cs

end ReversePolish.Literal
