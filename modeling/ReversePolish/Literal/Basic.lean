import ReversePolish.Value.Format

/-! # Literals -/

namespace ReversePolish

/-- A value as it was entered. -/
structure Literal where
  value : Value
  /-- The style that the entered text asks for. -/
  style : Style := {}

end ReversePolish
