import Mathlib.Data.List.Forall2

/-! # Outcomes of computations that may fail

How a chain of computations comes out, in terms of its first part. -/

namespace ReversePolish.Outcome

variable {ε α β : Type}

theorem bind_eq_ok {x : Except ε α} {f : α → Except ε β} {b : β} :
    (x >>= f) = .ok b ↔ ∃ a, x = .ok a ∧ f a = .ok b := by
  cases x with
  | error e => simp [bind, Except.bind]
  | ok a => simp [bind, Except.bind]

theorem bind_eq_error {x : Except ε α} {f : α → Except ε β} {e : ε} :
    (x >>= f) = .error e ↔ x = .error e ∨ ∃ a, x = .ok a ∧ f a = .error e := by
  cases x with
  | error e => simp [bind, Except.bind]
  | ok a => simp [bind, Except.bind]

theorem map_eq_ok {x : Except ε α} {f : α → β} {b : β} :
    x.map f = .ok b ↔ ∃ a, x = .ok a ∧ f a = b := by
  cases x with
  | error e => simp [Except.map]
  | ok a => simp [Except.map]

theorem map_eq_error {x : Except ε α} {f : α → β} {e : ε} :
    x.map f = .error e ↔ x = .error e := by
  cases x with
  | error e => simp [Except.map]
  | ok a => simp [Except.map]

/-! ## Steps over a list -/

theorem mapM_eq_ok {f : α → Except ε β} {xs : List α} {ys : List β} :
    xs.mapM f = .ok ys ↔ List.Forall₂ (fun x y => f x = .ok y) xs ys := by
  induction xs generalizing ys with
  | nil => simp [pure, Except.pure, eq_comm]
  | cons x xs ih =>
      simp only [List.mapM_cons, bind_eq_ok, ih, List.forall₂_cons_left_iff, pure, Except.pure,
        Except.ok.injEq]
      constructor
      · rintro ⟨y, hy, ys, hys, rfl⟩
        exact ⟨y, ys, hy, hys, rfl⟩
      · rintro ⟨y, ys, hy, hys, rfl⟩
        exact ⟨y, hy, ys, hys, rfl⟩

theorem exists_of_mapM_eq_ok {f : α → Except ε β} {xs : List α} {ys : List β}
    (h : xs.mapM f = .ok ys) : ∀ x ∈ xs, ∃ y, f x = .ok y := by
  have hsteps := mapM_eq_ok.mp h
  clear h
  induction hsteps with
  | nil => exact List.forall_mem_nil _
  | cons hy _ ih => exact List.forall_mem_cons.mpr ⟨⟨_, hy⟩, ih⟩

variable {step : β → α → Except ε β}

/-- What the steps for the given elements preserve holds at the end. -/
theorem foldlM_preserves_of_mem {P : β → Prop} {xs : List α}
    (hstep : ∀ b, ∀ x ∈ xs, ∀ b', P b → step b x = .ok b' → P b') {start last : β}
    (hstart : P start) (h : xs.foldlM step start = .ok last) : P last := by
  induction xs generalizing start with
  | nil =>
      cases h
      exact hstart
  | cons x xs ih =>
      obtain ⟨b, hb, h⟩ := bind_eq_ok.mp h
      refine ih (fun b y hy => hstep b y (List.mem_cons_of_mem x hy)) ?_ h
      exact hstep start x List.mem_cons_self b hstart hb

/-- What every step preserves holds at the end. -/
theorem foldlM_preserves {P : β → Prop} (hstep : ∀ b x b', P b → step b x = .ok b' → P b')
    {xs : List α} {start last : β} (hstart : P start) (h : xs.foldlM step start = .ok last) :
    P last :=
  foldlM_preserves_of_mem (fun b x _ => hstep b x) hstart h

/-- The steps fail as the first of them does that fails. -/
theorem foldlM_eq_error {xs : List α} {start : β} {e : ε} :
    xs.foldlM step start = .error e ↔
      ∃ before x after b, xs = before ++ x :: after ∧ before.foldlM step start = .ok b ∧
        step b x = .error e := by
  constructor
  · intro h
    induction xs generalizing start with
    | nil => cases h
    | cons x xs ih =>
        rcases bind_eq_error.mp h with h | ⟨b, hb, h⟩
        · exact ⟨[], x, xs, start, rfl, rfl, h⟩
        · obtain ⟨before, y, after, c, rfl, hc, hy⟩ := ih h
          refine ⟨x :: before, y, after, c, rfl, ?_, hy⟩
          rw [List.foldlM_cons]
          exact bind_eq_ok.mpr ⟨b, hb, hc⟩
  · rintro ⟨before, x, after, b, rfl, hb, hx⟩
    rw [List.foldlM_append]
    exact bind_eq_error.mpr (.inr ⟨b, hb, bind_eq_error.mpr (.inl hx)⟩)

/-! ## Two computations -/

/-- Either both fail, with the same error, or both have results, in the given relation. -/
inductive Lockstep (r : α → β → Prop) : Except ε α → Except ε β → Prop where
  | failed (e : ε) : Lockstep r (.error e) (.error e)
  | given {a : α} {b : β} (h : r a b) : Lockstep r (.ok a) (.ok b)

namespace Lockstep

variable {γ δ : Type} {r : α → β → Prop} {r' : γ → δ → Prop} {x : Except ε α} {y : Except ε β}

theorem refl {r : α → α → Prop} (hr : ∀ a, r a a) (x : Except ε α) : Lockstep r x x := by
  cases x with
  | error e => exact .failed e
  | ok a => exact .given (hr a)

theorem bind {f : α → Except ε γ} {g : β → Except ε δ} (h : Lockstep r x y)
    (hnext : ∀ a b, r a b → Lockstep r' (f a) (g b)) : Lockstep r' (x >>= f) (y >>= g) := by
  cases h with
  | failed e => exact .failed e
  | given h => exact hnext _ _ h

/-- After the same first part. -/
theorem bind_left {f : α → Except ε γ} {g : α → Except ε δ} (x : Except ε α)
    (hnext : ∀ a, Lockstep r' (f a) (g a)) : Lockstep r' (x >>= f) (x >>= g) := by
  cases x with
  | error e => exact .failed e
  | ok a => exact hnext a

theorem map {f : α → γ} {g : β → δ} (h : Lockstep r x y)
    (hnext : ∀ a b, r a b → r' (f a) (g b)) : Lockstep r' (x.map f) (y.map g) := by
  cases h with
  | failed e => exact .failed e
  | given h => exact .given (hnext _ _ h)

/-- Steps over two lists, element by element. -/
theorem foldlM {q : γ → δ → Prop} {f : α → γ → Except ε α} {g : β → δ → Except ε β}
    (hstep : ∀ c d a b, q c d → r a b → Lockstep r (f a c) (g b d)) {a : α} {b : β} (h : r a b)
    {cs : List γ} {ds : List δ} (hlist : List.Forall₂ q cs ds) :
    Lockstep r (cs.foldlM f a) (ds.foldlM g b) := by
  induction hlist generalizing a b with
  | nil => exact .given h
  | cons hq _ ih =>
      rw [List.foldlM_cons, List.foldlM_cons]
      exact (hstep _ _ a b hq h).bind fun _ _ h => ih h

end Lockstep

end ReversePolish.Outcome
