import ReversePolish.Operator.Shaped
import ReversePolish.Proofs.Persistence

/-! # Operators under stricter and looser limits

Limits refuse results, and have no other influence on them. What an operator gives under strict
limits it gives under looser ones. -/

namespace ReversePolish

/-- Whether the second limits allow whatever the first allow. -/
structure Limits.Within (strict loose : Limits) : Prop where
  promotion : loose.promotion = strict.promotion ∨
    strict.promotion = .explicit ∧ loose.promotion = .onOverflow
  maxIntegerBits : strict.maxIntegerBits ≤ loose.maxIntegerBits

theorem Limits.Within.onOverflow {strict loose : Limits} (h : strict.Within loose)
    (hstrict : strict.promotion = .onOverflow) : loose.promotion = .onOverflow := by
  obtain hsame | ⟨-, hloose⟩ := h.promotion
  · exact hsame.trans hstrict
  · exact hloose

theorem Limits.Within.refl (limits : Limits) : limits.Within limits := ⟨.inl rfl, Nat.le_refl _⟩

/-- Whether looser limits keep the results, and the evaluation fails as an operation on values
does. -/
def Evaluation.Persistent (f : Evaluation) : Prop :=
  ∀ strict loose, Limits.Within strict loose → ∀ args,
    Persists Error.IsOperational Eq (f strict args) (f loose args)

/-- What does not consult the limits only has to fail for the right reasons. -/
theorem Evaluation.persistent_of_raises {f : List Value → Except Error Value}
    (h : ∀ args, Raises Error.IsOperational (f args)) : Evaluation.Persistent fun _ => f :=
  fun _ _ _ args => (h args).persists

namespace Operator

variable {op : String}

/-! ## Arguments -/

theorem unary_persistent {f : Limits → Value → Except Error Value}
    (h : ∀ strict loose, Limits.Within strict loose → ∀ a,
      Persists Error.IsOperational Eq (f strict a) (f loose a)) :
    Evaluation.Persistent fun limits => unary op (f limits) := by
  intro strict loose hlimits args
  match args with
  | [a] => exact h strict loose hlimits a
  | [] => exact .refused (by rfl) _
  | _ :: _ :: _ => exact .refused (by rfl) _

theorem binary_persistent {f : Limits → Value → Value → Except Error Value}
    (h : ∀ strict loose, Limits.Within strict loose → ∀ a b,
      Persists Error.IsOperational Eq (f strict a b) (f loose a b)) :
    Evaluation.Persistent fun limits => binary op (f limits) := by
  intro strict loose hlimits args
  match args with
  | [a, b] => exact h strict loose hlimits a b
  | [] => exact .refused (by rfl) _
  | [_] => exact .refused (by rfl) _
  | _ :: _ :: _ :: _ => exact .refused (by rfl) _

theorem unary_persistent_of_raises {f : Value → Except Error Value}
    (h : ∀ a, Raises Error.IsOperational (f a)) : Evaluation.Persistent fun _ => unary op f :=
  unary_persistent fun _ _ _ a => (h a).persists

theorem binary_persistent_of_raises {f : Value → Value → Except Error Value}
    (h : ∀ a b, Raises Error.IsOperational (f a b)) : Evaluation.Persistent fun _ => binary op f :=
  binary_persistent fun _ _ _ a b => (h a b).persists

theorem scalarArg_raises (v : Value) : Raises Error.IsOperational (scalarArg op v) := by
  cases v with
  | scalar s => trivial
  | _ => rfl

theorem realArg_raises (v : Value) : Raises Error.IsOperational (realArg op v) :=
  (scalarArg_raises v).map _

theorem scalarPair_raises (a b : Value) : Raises Error.IsOperational (scalarPair op a b) := by
  unfold scalarPair
  split
  · trivial
  · rfl

/-! ## Vectors and matrices -/

theorem addShaped_raises (a b : Value) : Raises Error.IsOperational (addShaped op a b) := by
  unfold addShaped
  split
  · split
    · trivial
    · rfl
  · split
    · trivial
    · rfl
  · rfl

theorem negShaped_raises (a : Value) : Raises Error.IsOperational (negShaped a) := by
  cases a with
  | vector d v => trivial
  | matrix d m => trivial
  | _ => rfl

theorem subShaped_raises (a b : Value) : Raises Error.IsOperational (subShaped op a b) :=
  (negShaped_raises b).bind fun _ => addShaped_raises a _

theorem scaleShaped_raises (a : Value) (k : Float) :
    Raises Error.IsOperational (scaleShaped op a k) := by
  cases a with
  | vector d v => trivial
  | matrix d m => trivial
  | _ => rfl

theorem mulShaped_raises (a b : Value) : Raises Error.IsOperational (mulShaped op a b) := by
  unfold mulShaped
  split
  · exact scaleShaped_raises _ _
  · exact scaleShaped_raises _ _
  · split
    · trivial
    · rfl
  · split
    · trivial
    · rfl
  · rfl

end Operator

end ReversePolish
