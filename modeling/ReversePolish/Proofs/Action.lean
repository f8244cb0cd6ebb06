import ReversePolish.Action

/-! # What is left of a failed action

A failure takes nothing back. An action leaves no trace of its failure for another reason: what can
fail comes before the first change. -/

namespace ReversePolish.Action

variable {σ α β : Type} {x : Action σ α} {f : α → Action σ β} {s t : σ} {a : α} {e : Error}

/-- A failure leaves the state as it was. -/
def Atomic (x : Action σ α) : Prop := ∀ s e t, x s = .error e t → t = s

/-- There are no failures. -/
def Succeeds (x : Action σ α) : Prop := ∀ s e t, x s ≠ .error e t

/-- The state stays as it was, whatever comes of it. -/
structure Looks (x : Action σ α) : Prop where
  atomic : x.Atomic
  still : ∀ s a t, x s = .ok a t → t = s

theorem Succeeds.atomic (h : x.Succeeds) : x.Atomic := fun s e t herror => absurd herror (h s e t)

/-! ## One action after another -/

protected theorem bind_eq_error :
    (x >>= f) s = .error e t ↔ x s = .error e t ∨ ∃ a u, x s = .ok a u ∧ f a u = .error e t := by
  simp only [bind, EStateM.bind]
  cases x s with
  | ok a u => simp [and_assoc]
  | error e u => simp

/-- A handler goes on from the state that the failure left. -/
theorem tryCatch_apply (x : Action σ α) (f : Error → Action σ α) (s : σ) :
    (tryCatch x f) s = match x s with
      | .ok a t => .ok a t
      | .error e t => f e t := by
  change EStateM.tryCatch x f s = _
  delta EStateM.tryCatch
  dsimp only
  cases x s <;> rfl

theorem tryCatch_eq_ok {f : Error → Action σ α} :
    (tryCatch x f) s = .ok a t ↔ x s = .ok a t ∨ ∃ e u, x s = .error e u ∧ f e u = .ok a t := by
  rw [tryCatch_apply]
  cases x s with
  | ok a u => simp
  | error e u => simp [and_assoc]

theorem tryCatch_eq_error {f : Error → Action σ α} :
    (tryCatch x f) s = .error e t ↔ ∃ e' u, x s = .error e' u ∧ f e' u = .error e t := by
  rw [tryCatch_apply]
  cases x s with
  | ok a u => simp
  | error e' u => simp [and_assoc]

/-- What fails behind a look fails on the same state. -/
theorem Looks.bind_atomic (h : x.Looks) (hf : ∀ a, (f a).Atomic) : (x >>= f).Atomic := by
  intro s e t herror
  rcases Action.bind_eq_error.mp herror with hx | ⟨a, u, hx, hf'⟩
  · exact h.atomic s e t hx
  · obtain rfl := h.still s a u hx
    exact hf a u e t hf'

/-- What cannot fail may change the state. -/
theorem Atomic.bind_succeeds (h : x.Atomic) (hf : ∀ a, (f a).Succeeds) : (x >>= f).Atomic := by
  intro s e t herror
  rcases Action.bind_eq_error.mp herror with hx | ⟨a, u, -, hf'⟩
  · exact h s e t hx
  · exact absurd hf' (hf a u e t)

theorem Succeeds.bind (h : x.Succeeds) (hf : ∀ a, (f a).Succeeds) : (x >>= f).Succeeds := by
  intro s e t herror
  rcases Action.bind_eq_error.mp herror with hx | ⟨a, u, -, hf'⟩
  · exact h s e t hx
  · exact hf a u e t hf'

theorem Atomic.ite {p : Prop} [Decidable p] {x y : Action σ α} (hx : x.Atomic) (hy : y.Atomic) :
    (if p then x else y).Atomic := by
  split
  · exact hx
  · exact hy

theorem Succeeds.ite {p : Prop} [Decidable p] {x y : Action σ α} (hx : x.Succeeds)
    (hy : y.Succeeds) : (if p then x else y).Succeeds := by
  split
  · exact hx
  · exact hy

/-! ## Single actions -/

theorem succeeds_pure (a : α) : (pure a : Action σ α).Succeeds := by
  intro s e t h
  cases h

theorem succeeds_modify (g : σ → σ) : (modify g : Action σ Unit).Succeeds := by
  intro s e t h
  cases h

theorem succeeds_total (g : σ → σ × α) : (total g).Succeeds := by
  intro s e t h
  cases h

theorem looks_get : (get : Action σ σ).Looks where
  atomic s e t h := by cases h
  still s a t h := by
    cases h
    rfl

theorem succeeds_get : (get : Action σ σ).Succeeds := by
  intro s e t h
  cases h

theorem looks_throw (e : Error) : (throw e : Action σ α).Looks where
  atomic s e t h := by
    cases h
    rfl
  still s a t h := by cases h

theorem looks_liftExcept (x : Except Error α) : (liftExcept x : Action σ α).Looks := by
  cases x with
  | error e => exact looks_throw e
  | ok a =>
      refine ⟨(succeeds_pure a).atomic, fun s b t h => ?_⟩
      cases h
      rfl

/-! ## Outcomes and attempts -/

theorem outcome_bind (x : Action σ α) (f : α → Action σ β) (s : σ) :
    (x >>= f).outcome s = match x.outcome s with
      | (t, .ok a) => (f a).outcome t
      | (t, .error e) => (t, .error e) := by
  simp only [outcome, bind, EStateM.bind]
  cases x s <;> rfl

theorem attempt_eq_ok : x.attempt s = .ok (t, a) ↔ x s = .ok a t := by
  simp only [attempt]
  cases x s with
  | ok b u => simp [and_comm]
  | error e u => simp

theorem attempt_eq_error : x.attempt s = .error e ↔ ∃ t, x s = .error e t := by
  simp only [attempt]
  cases x s with
  | ok b u => simp
  | error e u => simp

theorem exists_error_iff {P : Error → Prop} :
    (∃ e t, x s = .error e t ∧ P e) ↔ ∃ e, x.attempt s = .error e ∧ P e := by
  simp only [attempt_eq_error, exists_and_right]

end ReversePolish.Action
