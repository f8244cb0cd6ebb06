import ReversePolish.Error
import ReversePolish.Proofs.Outcome

/-! # Results that persist

Of two computations the second may be given more room than the first. Where all results of the first
are results of the second, and the first fails for known reasons only, the same can be said of the
computations made of them. -/

namespace ReversePolish

/-! ## Reasons to fail -/

/-- Whether errors of the kind come of an operation on values. -/
def ErrorKind.isOperational : ErrorKind → Bool
  | typeMismatch | shapeMismatch | divisionByZero | integerOverflow | domain | internal => true
  | _ => false

/-- Whether errors of the kind come of a text that is read. -/
def ErrorKind.isTextual : ErrorKind → Bool
  | parse | shapeMismatch => true
  | _ => false

def Error.IsOperational (err : Error) : Prop := err.kind.isOperational

def Error.IsTextual (err : Error) : Prop := err.kind.isTextual

/-- An operation on values neither reads tokens nor asks for room on the stack. -/
theorem ErrorKind.not_mem_of_isOperational {k : ErrorKind} (h : k.isOperational) :
    k ∉ [parse, unknownCommand, stackUnderflow, stackOverflow] := by
  revert h
  cases k <;> decide

theorem ErrorKind.ne_stackOverflow_of_isTextual {k : ErrorKind} (h : k.isTextual) :
    k ≠ stackOverflow := by
  rintro rfl
  cases h

/-- Whether the computation, if it fails, fails for such a reason. -/
def Raises {α : Type} (P : Error → Prop) : Except Error α → Prop
  | .ok _ => True
  | .error err => P err

namespace Raises

variable {α β : Type} {P : Error → Prop} {x : Except Error α}

theorem of_eq_error (h : Raises P x) {err : Error} (hx : x = .error err) : P err := by
  rwa [hx] at h

theorem mono {Q : Error → Prop} (h : Raises P x) (hPQ : ∀ err, P err → Q err) : Raises Q x := by
  cases x with
  | error err => exact hPQ err h
  | ok a => trivial

theorem bind {f : α → Except Error β} (h : Raises P x) (hnext : ∀ a, Raises P (f a)) :
    Raises P (x >>= f) := by
  cases x with
  | error err => exact h
  | ok a => exact hnext a

theorem map (h : Raises P x) (f : α → β) : Raises P (x.map f) := by
  cases x with
  | error err => exact h
  | ok a => trivial

theorem ite {c : Prop} [Decidable c] {x y : Except Error α} (hx : Raises P x) (hy : Raises P y) :
    Raises P (if c then x else y) := by
  split
  · exact hx
  · exact hy

theorem mapM {f : β → Except Error α} {xs : List β} (h : ∀ x ∈ xs, Raises P (f x)) :
    Raises P (xs.mapM f) := by
  induction xs with
  | nil => trivial
  | cons x xs ih =>
      obtain ⟨hx, hxs⟩ := List.forall_mem_cons.mp h
      rw [List.mapM_cons]
      exact hx.bind fun _ => (ih hxs).bind fun _ => trivial

end Raises

/-! ## Two computations -/

/-- Either the first computation fails for such a reason, or both have results, in the given
relation. -/
inductive Persists {α β : Type} (P : Error → Prop) (r : α → β → Prop) :
    Except Error α → Except Error β → Prop where
  | given {a : α} {b : β} (h : r a b) : Persists P r (.ok a) (.ok b)
  | refused {err : Error} (h : P err) (y : Except Error β) : Persists P r (.error err) y

theorem Raises.persists {α : Type} {P : Error → Prop} {x : Except Error α} (h : Raises P x) :
    Persists P Eq x x := by
  cases x with
  | error err => exact .refused h _
  | ok a => exact .given rfl

namespace Persists

variable {α β γ δ : Type} {P : Error → Prop} {r : α → β → Prop} {r' : γ → δ → Prop}
  {x : Except Error α} {y : Except Error β}

theorem raises (h : Persists P r x y) : Raises P x := by
  cases h with
  | given h => trivial
  | refused h y => exact h

theorem of_eq_ok (h : Persists P r x y) {a : α} (hx : x = .ok a) : ∃ b, y = .ok b ∧ r a b := by
  cases h with
  | given h =>
      obtain rfl := Except.ok.inj hx
      exact ⟨_, rfl, h⟩
  | refused h y => cases hx

theorem mono {Q : Error → Prop} (h : Persists P r x y) (hPQ : ∀ err, P err → Q err) :
    Persists Q r x y := by
  cases h with
  | given h => exact .given h
  | refused h y => exact .refused (hPQ _ h) y

theorem bind {f : α → Except Error γ} {g : β → Except Error δ} (h : Persists P r x y)
    (hnext : ∀ a b, r a b → Persists P r' (f a) (g b)) : Persists P r' (x >>= f) (y >>= g) := by
  cases h with
  | given h => exact hnext _ _ h
  | refused h y => exact .refused h _

/-- After the same first part. -/
theorem bind_left {f : α → Except Error γ} {g : α → Except Error δ} (h : Raises P x)
    (hnext : ∀ a, Persists P r' (f a) (g a)) : Persists P r' (x >>= f) (x >>= g) := by
  cases x with
  | error err => exact .refused h _
  | ok a => exact hnext a

theorem map {f : α → γ} {g : β → δ} (h : Persists P r x y)
    (hnext : ∀ a b, r a b → r' (f a) (g b)) : Persists P r' (x.map f) (y.map g) := by
  cases h with
  | given h => exact .given (hnext _ _ h)
  | refused h y => exact .refused h _

theorem foldlM {σ : Type} {f : α → σ → Except Error α} {g : β → σ → Except Error β}
    (hstep : ∀ x a b, r a b → Persists P r (f a x) (g b x)) {a : α} {b : β} (h : r a b)
    (xs : List σ) : Persists P r (xs.foldlM f a) (xs.foldlM g b) := by
  induction xs generalizing a b with
  | nil => exact .given h
  | cons x xs ih =>
      rw [List.foldlM_cons, List.foldlM_cons]
      exact (hstep x a b h).bind fun _ _ h => ih h

end Persists

end ReversePolish
