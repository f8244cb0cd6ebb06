import ReversePolish.Error
import ReversePolish.Settings.Basic

/-! # Operators -/

namespace ReversePolish

/-- The result of an operator for its arguments, the topmost of them last. -/
abbrev Evaluation := Limits → List Value → Except Error Value

/-- The kinds that an operator accepts at each of its arguments. -/
abbrev Signature := List KindSet

namespace Signature

/-- As many kinds as argument positions, each among those accepted there. -/
def accepts : Signature → List Kind → Bool
  | [], [] => true
  | s :: sig, k :: kinds => s.contains k && accepts sig kinds
  | _, _ => false

def text (sig : Signature) : String :=
  if sig.isEmpty then "()" else ", ".intercalate (sig.map KindSet.name)

end Signature

/-- A named operation on the topmost values of a stack. -/
structure Operator where
  name : String
  aliases : List String := []
  category : String
  description : String := ""
  /-- Lines that show the operator at work. -/
  examples : List String := []
  signatures : List Signature
  evaluate : Evaluation

namespace Operator

/-- The name and the aliases. -/
def names (op : Operator) : List String := op.name :: op.aliases

/-- The number of arguments. -/
def arity (op : Operator) : Nat := (op.signatures.head?.map List.length).getD 0

def accepts (op : Operator) (kinds : List Kind) : Bool :=
  op.signatures.any (·.accepts kinds)

/-- Whether the operator accepts the topmost kinds of a stack, the top last. -/
def applicableTo (op : Operator) (kinds : List Kind) : Bool :=
  op.arity ≤ kinds.length && op.accepts (kinds.drop (kinds.length - op.arity))

/-- Evaluates the operator on arguments that fit one of its signatures. -/
def apply (op : Operator) (limits : Limits) (args : List Value) : Except Error Value :=
  if op.accepts (args.map Value.kind) then op.evaluate limits args
  else .error (.typeMismatch op.name (args.map Value.kind))

/-- Whether there are signatures, all of one length. -/
def wellFormed (op : Operator) : Bool :=
  !op.signatures.isEmpty && op.signatures.all (·.length = op.arity)

end Operator

end ReversePolish
