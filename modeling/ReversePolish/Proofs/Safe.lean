import ReversePolish.Proofs.Outcome
import ReversePolish.Proofs.Persistence

/-! # Errors that a line may cause

Some errors blame the calculator and not the line: internal ones, those of registering operators,
and an unknown unit where a unit was accepted before. A computation is safe if it causes none of
them. -/

namespace ReversePolish

/-- Whether the line is to blame. -/
def Error.isOrdinary : Error → Bool
  | internal _ | duplicateOperatorName _ | invalidSignature _ | domain _ (.unknownUnit _) => false
  | _ => true

theorem Error.isOrdinary_iff {err : Error} :
    err.isOrdinary ↔
      err.kind ∉ [ErrorKind.internal, .duplicateOperatorName, .invalidSignature] ∧
        ∀ op name, err ≠ .domain op (.unknownUnit name) := by
  cases err with
  | domain op reason => cases reason <;> simp [isOrdinary, kind]
  | _ => simp [isOrdinary, kind]

/-- Results have the property, and errors are ordinary. -/
def Safe {α : Type} (P : α → Prop) : Except Error α → Prop
  | .ok a => P a
  | .error err => err.isOrdinary

namespace Safe

variable {α β : Type} {P : α → Prop} {Q : β → Prop} {x : Except Error α}

theorem bind {f : α → Except Error β} (h : Safe P x) (hnext : ∀ a, P a → Safe Q (f a)) :
    Safe Q (x >>= f) := by
  cases x with
  | error err => exact h
  | ok a => exact hnext a h

theorem map {f : α → β} (h : Safe P x) (hnext : ∀ a, P a → Q (f a)) : Safe Q (x.map f) := by
  cases x with
  | error err => exact h
  | ok a => exact hnext a h

theorem mono {P' : α → Prop} (h : Safe P x) (hP : ∀ a, P a → P' a) : Safe P' x := by
  cases x with
  | error err => exact h
  | ok a => exact hP a h

theorem isOrdinary (h : Safe P x) {err : Error} (hx : x = .error err) : err.isOrdinary := by
  rwa [hx] at h

theorem ite {c : Prop} [Decidable c] {x y : Except Error α} (hx : Safe P x) (hy : Safe P y) :
    Safe P (if c then x else y) := by
  split
  · exact hx
  · exact hy

theorem mapM {f : β → Except Error α} {xs : List β} (h : ∀ x ∈ xs, Safe P (f x)) :
    Safe (fun ys => ys.length = xs.length ∧ ∀ y ∈ ys, P y) (xs.mapM f) := by
  induction xs with
  | nil => exact ⟨rfl, List.forall_mem_nil P⟩
  | cons x xs ih =>
      obtain ⟨hx, hxs⟩ := List.forall_mem_cons.mp h
      rw [List.mapM_cons]
      refine hx.bind fun y hy => (ih hxs).bind fun ys hys => ?_
      exact ⟨by simp [hys.1], List.forall_mem_cons.mpr ⟨hy, hys.2⟩⟩

end Safe

/-- Whoever types a text is to blame for it. -/
theorem Raises.safe {α : Type} {x : Except Error α} (h : Raises Error.IsTextual x) :
    Safe (fun _ => True) x := by
  cases x with
  | ok a => trivial
  | error err =>
      cases err with
      | parse | shapeMismatch => rfl
      | _ => cases h

end ReversePolish
