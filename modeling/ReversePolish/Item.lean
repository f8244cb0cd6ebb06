import ReversePolish.Chain
import ReversePolish.Value.Spoken

/-! # Items on the stack, and what is shown of them -/

namespace ReversePolish

/-- A value with the input that led to it. -/
structure Item where
  input : Chain
  result : Value
  deriving BEq

/-- What a presentation shows of an item. -/
structure ItemView where
  input : List String
  output : String
  kind : Kind
  spoken : String
  deriving DecidableEq, Repr

/-- The result appears in the style of the input, and where that sets nothing, in the default
one. -/
def Item.view (defaults : Style) (item : Item) : ItemView where
  input := item.input.rendered
  output := item.result.format (item.input.style.orElse defaults)
  kind := item.result.kind
  spoken := item.result.spoken

end ReversePolish
