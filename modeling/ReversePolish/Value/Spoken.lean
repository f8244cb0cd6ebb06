import ReversePolish.Value.Format

/-! # Descriptions for screen readers -/

namespace ReversePolish.Value

/-- Commas between the items, and a word before the last. -/
def enumerated (items : List String) : String :=
  match items with
  | [] => ""
  | [only] => only
  | _ => ", ".intercalate items.dropLast ++ ", and " ++ items.getLastD ""

def spokenComponents (xs : List Float) : String :=
  enumerated (xs.map (Decimal.general Style.defaultPrecision))

/-- The description of a value. -/
def spoken : Value → String
  | vector _ v => "Vector with components " ++ spokenComponents v.toList
  | matrix _ m =>
    let rows := m.toRows.zipIdx.map fun (row, i) =>
      s!"row {i + 1} components {spokenComponents row}"
    "Matrix with " ++ enumerated rows
  | v => v.format {}

end ReversePolish.Value
