import ReversePolish.Error

/-! # Actions on a state

An action works on a state in place and may fail on the way. The state is there after a failure as
well, as far as the action had come: nothing takes back what was done before. -/

namespace ReversePolish

/-- A computation on a state that leaves the state behind with its result as with an error. -/
abbrev Action (σ : Type) := EStateM Error σ

namespace Action

variable {σ α β : Type}

/-- The state behind the action, and what came of it. -/
def outcome (x : Action σ α) (s : σ) : σ × Except Error α :=
  match x s with
  | .ok a t => (t, .ok a)
  | .error e t => (t, .error e)

/-- The state and the result, for those who give up the state when there is an error. -/
def attempt (x : Action σ α) (s : σ) : Except Error (σ × α) :=
  match x s with
  | .ok a t => .ok (t, a)
  | .error e _ => .error e

/-- A change of the state that cannot fail. -/
def total (f : σ → σ × α) : Action σ α := fun s => .ok (f s).2 (f s).1

theorem attempt_bind (x : Action σ α) (f : α → Action σ β) (s : σ) :
    (x >>= f).attempt s = x.attempt s >>= fun (t, a) => (f a).attempt t := by
  simp only [attempt, bind, EStateM.bind]
  cases x s <;> rfl

@[simp]
theorem attempt_pure (a : α) (s : σ) : (pure a : Action σ α).attempt s = .ok (s, a) := rfl

@[simp]
theorem attempt_throw (e : Error) (s : σ) : (throw e : Action σ α).attempt s = .error e := rfl

@[simp]
theorem attempt_get_bind (f : σ → Action σ α) (s : σ) :
    (get >>= f).attempt s = (f s).attempt s := rfl

@[simp]
theorem attempt_modify_bind (g : σ → σ) (f : Unit → Action σ α) (s : σ) :
    (modify g >>= f).attempt s = (f ()).attempt (g s) := rfl

@[simp]
theorem attempt_liftExcept_bind (x : Except Error β) (f : β → Action σ α) (s : σ) :
    (liftExcept x >>= f).attempt s = x >>= fun b => (f b).attempt s := by
  cases x <;> rfl

@[simp]
theorem attempt_ite (p : Prop) [Decidable p] (x y : Action σ α) (s : σ) :
    (if p then x else y).attempt s = if p then x.attempt s else y.attempt s := by
  split <;> rfl

end Action

end ReversePolish
