import Mathlib.Data.List.DropRight
import Mathlib.Data.List.Forall2
import Mathlib.Logic.Function.Iterate
import ReversePolish.Command

/-! # Timelines

A present with a past of bounded length and an undone future. Steps back and forth along it are
inverse to each other until an end is reached. -/

namespace ReversePolish

/-- The past has the oldest entry first, and the future the nearest. -/
structure Timeline (α : Type) where
  past : List α
  present : α
  future : List α

namespace Timeline

variable {α : Type}

/-- What may happen to a timeline. -/
inductive Act (α : Type) where
  | become (next : α)
  | travel (t : Travel)
  | stay

/-- The present becomes past, of which the latest entries up to the limit stay, and the future is
lost. -/
def become (limit : Nat) (t : Timeline α) (next : α) : Timeline α :=
  ⟨(t.past ++ [t.present]).rtake limit, next, []⟩

/-- The newest past becomes present, if there is any past. -/
def undo (t : Timeline α) : Timeline α :=
  match t.past.getLast? with
  | none => t
  | some old => ⟨t.past.dropLast, old, t.present :: t.future⟩

/-- The nearest future becomes present, if there is any future. -/
def redo (t : Timeline α) : Timeline α :=
  match t.future with
  | [] => t
  | next :: rest => ⟨t.past ++ [t.present], next, rest⟩

def travel (t : Timeline α) : Travel → Timeline α
  | .undo => t.undo
  | .redo => t.redo

def step (limit : Nat) (t : Timeline α) : Act α → Timeline α
  | .become next => t.become limit next
  | .travel way => t.travel way
  | .stay => t

/-- The number of entries around the present. -/
def extent (t : Timeline α) : Nat := t.past.length + t.future.length

/-! ## Steps back and forth -/

theorem undo_of_past_nil {t : Timeline α} (h : t.past = []) : t.undo = t := by
  simp [undo, h]

theorem redo_of_future_nil {t : Timeline α} (h : t.future = []) : t.redo = t := by
  simp [redo, h]

theorem length_past_undo (t : Timeline α) : t.undo.past.length = t.past.length - 1 := by
  simp only [undo]
  split
  · next h => simp [List.getLast?_eq_none_iff.mp h]
  · simp

theorem length_past_redo (t : Timeline α) :
    t.redo.past.length = t.past.length + min 1 t.future.length := by
  simp only [redo]
  split
  · next h => simp [h]
  · next h => simp [h]

theorem extent_undo (t : Timeline α) : t.undo.extent = t.extent := by
  simp only [undo]
  split
  · rfl
  · next old h =>
      obtain ⟨past, hpast⟩ := List.getLast?_eq_some_iff.mp h
      simp [extent, hpast]
      omega

theorem extent_redo (t : Timeline α) : t.redo.extent = t.extent := by
  simp only [redo]
  split
  · rfl
  · next h =>
      simp [extent, h]
      omega

theorem redo_undo {t : Timeline α} (h : t.past ≠ []) : t.undo.redo = t := by
  rcases t with ⟨past, present, future⟩
  obtain rfl | ⟨older, old, rfl⟩ := List.eq_nil_or_concat' past
  · exact absurd rfl h
  · simp [undo, redo]

theorem length_past_iterate_undo (k : ℕ) (t : Timeline α) :
    (undo^[k] t).past.length = t.past.length - k := by
  induction k generalizing t with
  | zero => rfl
  | succ k ih =>
      rw [Function.iterate_succ_apply, ih, length_past_undo]
      omega

theorem extent_iterate_undo (k : ℕ) (t : Timeline α) : (undo^[k] t).extent = t.extent := by
  induction k generalizing t with
  | zero => rfl
  | succ k ih => rw [Function.iterate_succ_apply, ih, extent_undo]

theorem length_past_iterate_redo (k : ℕ) (t : Timeline α) :
    (redo^[k] t).past.length = t.past.length + min k t.future.length := by
  induction k generalizing t with
  | zero => simp
  | succ k ih =>
      have hextent := extent_redo t
      simp only [extent, length_past_redo] at hextent
      rw [Function.iterate_succ_apply, ih, length_past_redo]
      omega

theorem iterate_redo_undo_of_le {k : ℕ} {t : Timeline α} (h : k ≤ t.past.length) :
    redo^[k] (undo^[k] t) = t := by
  induction k generalizing t with
  | zero => rfl
  | succ k ih =>
      have hpast : t.past ≠ [] := List.ne_nil_of_length_pos (by omega)
      rw [Function.iterate_succ_apply' redo, Function.iterate_succ_apply undo,
        ih (by rw [length_past_undo]; omega), redo_undo hpast]

/-- Steps back are taken back by as many steps forward, unless they go beyond the past while there
is a future: the steps that found no past are then taken into that future. -/
theorem iterate_redo_undo_iff {k : ℕ} {t : Timeline α} :
    redo^[k] (undo^[k] t) = t ↔ k ≤ t.past.length ∨ t.future = [] := by
  constructor
  · intro h
    have hlength := congrArg (·.past.length) h
    have hextent := extent_iterate_undo k t
    simp only [extent, length_past_iterate_redo, length_past_iterate_undo] at hlength hextent
    rw [← List.length_eq_zero_iff]
    omega
  · rintro (h | h)
    · exact iterate_redo_undo_of_le h
    · rcases Nat.le_total k t.past.length with hk | hk
      · exact iterate_redo_undo_of_le hk
      · obtain ⟨j, rfl⟩ := Nat.exists_eq_add_of_le hk
        have hpast : (undo^[t.past.length] t).past = [] := by
          rw [← List.length_eq_zero_iff, length_past_iterate_undo, Nat.sub_self]
        rw [Nat.add_comm, Function.iterate_add_apply undo,
          Function.iterate_fixed (undo_of_past_nil hpast), Function.iterate_add_apply redo,
          iterate_redo_undo_of_le le_rfl, Function.iterate_fixed (redo_of_future_nil h)]

/-! ## The bound -/

theorem extent_become_le (limit : ℕ) (t : Timeline α) (next : α) :
    (t.become limit next).extent ≤ limit := by
  simp only [become, extent, List.rtake, List.length_drop, List.length_nil]
  omega

theorem extent_step_le {limit : ℕ} {t : Timeline α} (h : t.extent ≤ limit) (act : Act α) :
    (t.step limit act).extent ≤ limit := by
  cases act with
  | become next => exact extent_become_le limit t next
  | travel way =>
      cases way with
      | undo => exact (extent_undo t).trans_le h
      | redo => exact (extent_redo t).trans_le h
  | stay => exact h

theorem extent_foldl_step_le {limit : ℕ} {t : Timeline α} (h : t.extent ≤ limit)
    (acts : List (Act α)) : (acts.foldl (step limit) t).extent ≤ limit := by
  induction acts generalizing t with
  | nil => exact h
  | cons act acts ih => exact ih (extent_step_le h act)

/-! ## Two timelines -/

/-- Entry by entry in the given relation. -/
structure All₂ {β : Type} (R : α → β → Prop) (t : Timeline α) (u : Timeline β) : Prop where
  past : List.Forall₂ R t.past u.past
  present : R t.present u.present
  future : List.Forall₂ R t.future u.future

/-- Acts of one kind, towards presents in the given relation. -/
inductive Act.Rel {β : Type} (R : α → β → Prop) : Act α → Act β → Prop where
  | become {a : α} {b : β} (h : R a b) : Rel R (.become a) (.become b)
  | travel (way : Travel) : Rel R (.travel way) (.travel way)
  | stay : Rel R .stay .stay

namespace All₂

variable {β : Type} {R : α → β → Prop} {t : Timeline α} {u : Timeline β}

theorem undo (h : t.All₂ R u) : t.undo.All₂ R u.undo := by
  rcases t with ⟨past, present, future⟩
  rcases u with ⟨past', present', future'⟩
  obtain ⟨hpast, hpresent, hfuture⟩ := h
  rcases List.eq_nil_or_concat' past with rfl | ⟨older, old, rfl⟩
  · obtain rfl := List.forall₂_nil_left_iff.mp hpast
    exact ⟨hpast, hpresent, hfuture⟩
  · rcases List.eq_nil_or_concat' past' with rfl | ⟨older', old', rfl⟩
    · simpa using hpast.length_eq
    · rw [← List.forall₂_reverse_iff] at hpast
      simp only [List.reverse_append, List.reverse_singleton, List.singleton_append,
        List.forall₂_cons, List.forall₂_reverse_iff] at hpast
      simpa [Timeline.undo] using ⟨hpast.2, hpast.1, .cons hpresent hfuture⟩

theorem redo (h : t.All₂ R u) : t.redo.All₂ R u.redo := by
  rcases t with ⟨past, present, future⟩
  rcases u with ⟨past', present', future'⟩
  obtain ⟨hpast, hpresent, hfuture⟩ := h
  cases hfuture with
  | nil => exact ⟨hpast, hpresent, .nil⟩
  | cons hnext hrest => exact ⟨List.rel_append hpast (.cons hpresent .nil), hnext, hrest⟩

theorem become (h : t.All₂ R u) {a : α} {b : β} (hnext : R a b) (limit : ℕ) :
    (t.become limit a).All₂ R (u.become limit b) := by
  have hpast : List.Forall₂ R (t.past ++ [t.present]) (u.past ++ [u.present]) :=
    List.rel_append h.past (.cons h.present .nil)
  refine ⟨?_, hnext, .nil⟩
  rw [Timeline.become, Timeline.become, List.rtake, List.rtake, hpast.length_eq]
  exact List.forall₂_drop _ hpast

theorem step (h : t.All₂ R u) {act : Act α} {act' : Act β} (hact : act.Rel R act')
    (limit : ℕ) : (t.step limit act).All₂ R (u.step limit act') := by
  cases hact with
  | become hnext => exact h.become hnext limit
  | travel way =>
      cases way with
      | undo => exact h.undo
      | redo => exact h.redo
  | stay => exact h

end All₂

end Timeline

end ReversePolish
