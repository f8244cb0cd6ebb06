import ReversePolish.Measure.Families
import ReversePolish.Operator.Shaped

/-! # Conversion between units -/

namespace ReversePolish.UnitConversion

open Operator

/-- A unit argument, looked up in the catalog. -/
def unitArg (op : String) (v : Value) : Except Error (MeasureFamily × Measure) :=
  match v with
  | .unit name =>
    match MeasureFamily.lookup? name with
    | some found => .ok found
    | none => .error (.domain op (.unknownUnit name))
  | other => .error (.internal (.notUnit op other.kind))

/-- Scalars go through the base unit of the family, and vectors are scaled by one factor. -/
def convertValue (op : String) (args : List Value) (value : Value) (family : MeasureFamily)
    (source target : Measure) : Except Error Value :=
  if !family.converts.contains value.kind then .error (.typeMismatch op (args.map Value.kind))
  else
    match value with
    | .scalar s => .ok (.real (target.fromBase (source.toBase s.toReal)))
    | shaped =>
      match source.factorTo? target with
      | some factor => scaleShaped op shaped factor
      | none => .error (.internal (.offsetFamily family.name))

def convert : Evaluation := fun _ args => args |> ternary "convert" fun value source target => do
  let (sourceFamily, source) ← unitArg "convert" source
  let (targetFamily, target) ← unitArg "convert" target
  if sourceFamily.name ≠ targetFamily.name then
    .error (.domain "convert"
      (.unlikeUnits source.usage sourceFamily.name target.usage targetFamily.name))
  else convertValue "convert" args value sourceFamily source target

def toBaseUnit : Evaluation := fun _ args => args |> binary "ubase" fun value source => do
  let (family, source) ← unitArg "ubase" source
  convertValue "ubase" args value family source family.base

def category : String := "Units"

/-- What converts, if its family allows it. -/
def convertible : KindSet := .scalar ∪ .vector

def operators : List Operator := [
  { name := "convert", aliases := ["to"], category
    description := "Convert a value between two units of one family"
    examples := ["5 _km _m convert", "212 _F _C to"]
    signatures := [[convertible, .unit, .unit]], evaluate := convert },
  { name := "ubase", category
    description := "Convert a value to its family's base unit"
    examples := ["90 _deg ubase"]
    signatures := [[convertible, .unit]], evaluate := toBaseUnit }]

end ReversePolish.UnitConversion
