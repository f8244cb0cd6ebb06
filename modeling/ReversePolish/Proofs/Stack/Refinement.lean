import ReversePolish.Proofs.Action
import ReversePolish.Proofs.Stack.Operations
import ReversePolish.Proofs.Stack.Replay

/-! # Stacks as lists

Each operation of a stack does to its items what the same operation does to a list, unless it is
refused, and then it does nothing. The bound on the items holds through any run of operations. -/

namespace ReversePolish.Stack

open ReversePolish.Action Outcome

/-- What may be asked of a stack. -/
inductive Operation where
  | push (item : Item)
  | pop
  | replaceRange (start count : ℕ) (items : List Item)
  | clear
  | restore (old : Snapshot)

/-- The operation on a stack where it is, and what is told of it. -/
def Operation.perform : Operation → StackM (List (Change Item))
  | push item => return [← StackM.push item]
  | pop => return [(← StackM.pop).2]
  | replaceRange start count items => StackM.replaceRange start count items
  | clear => return [← StackM.clear]
  | restore old => return [← StackM.restore old]

/-- The stack that an operation leaves behind, whether it was refused or not. -/
def after (s : Stack) (op : Operation) : Stack := (op.perform.outcome s).1

/-- The operation on a list whose last element is the top. -/
def Operation.onList (items : List Item) : Operation → List Item
  | push item => items ++ [item]
  | pop => items.dropLast
  | replaceRange start count new => items.take start ++ new ++ items.drop (start + count)
  | clear => []
  | restore old => old.items

/-- Whether the stack may hold so many items. -/
def Admits (s : Stack) (size : ℕ) : Prop := ∀ limit ∈ s.maxDepth, size ≤ limit

/-- Why a stack refuses an operation. -/
inductive Refuses (s : Stack) : Operation → ErrorKind → Prop where
  | full {item : Item} (h : ¬ s.Admits (s.size + 1)) : Refuses s (.push item) .stackOverflow
  | empty (h : s.items = []) : Refuses s .pop .stackUnderflow
  | short {start count : ℕ} {items : List Item} (h : s.size < start + count) :
      Refuses s (.replaceRange start count items) .stackUnderflow
  | crowded {start count : ℕ} {items : List Item} (hrange : start + count ≤ s.size)
      (h : ¬ s.Admits ((Operation.replaceRange start count items).onList s.items).length) :
      Refuses s (.replaceRange start count items) .stackOverflow

/-- The next version holds what the operation makes of the list of items, within the same bound, and
the changes that are told lead there. -/
structure Follows (s : Stack) (op : Operation) (next : Stack) (changes : List (Change Item)) :
    Prop where
  items : next.items = op.onList s.items
  version : next.version = s.version + 1
  maxDepth : next.maxDepth = s.maxDepth
  admits : next.Admits next.size
  replay : Change.replay? s.items changes = some next.items

/-- An operation is refused for want of items or of room only, and then leaves the stack as it is.
Otherwise it happens to the list of items. -/
structure Refines (s : Stack) (op : Operation) : Prop where
  refuses_iff (kind : ErrorKind) :
    (∃ err left, op.perform s = .error err left ∧ err.kind = kind) ↔ s.Refuses op kind
  refused (err : Error) (left : Stack) (h : op.perform s = .error err left) : left = s
  served (next : Stack) (changes : List (Change Item)) (h : op.perform s = .ok changes next) :
    s.Follows op next changes

variable {s next : Stack} {op : Operation} {changes : List (Change Item)} {kind : ErrorKind}

/-! ## Room -/

theorem Admits.mono {size size' : ℕ} (h : s.Admits size) (hle : size' ≤ size) : s.Admits size' :=
  fun limit hlimit => Nat.le_trans hle (h limit hlimit)

theorem checkDepth_fails_iff {size : ℕ} :
    (∃ err, s.checkDepth size = .error err ∧ err.kind = kind) ↔
      ¬ s.Admits size ∧ kind = .stackOverflow := by
  unfold checkDepth Admits
  cases s.maxDepth with
  | none => simp
  | some limit => by_cases h : limit < size <;> simp [h, Error.kind, eq_comm]

/-! ## Nothing is changed before the last check -/

theorem atomic_push (item : Item) : (StackM.push item).Atomic := by
  refine looks_get.bind_atomic fun s => (looks_liftExcept _).bind_atomic fun _ => ?_
  refine ((succeeds_modify _).bind fun _ => ?_).atomic
  exact (succeeds_modify _).bind fun _ => succeeds_pure _

theorem atomic_pop : StackM.pop.Atomic := by
  refine looks_get.bind_atomic fun s => ?_
  cases s.top? with
  | none => exact (looks_throw _).atomic
  | some top =>
      refine ((succeeds_modify _).bind fun _ => ?_).atomic
      exact (succeeds_modify _).bind fun _ => succeeds_pure _

theorem atomic_replaceRange (start count : ℕ) (items : List Item) :
    (StackM.replaceRange start count items).Atomic := by
  refine looks_get.bind_atomic fun s => .ite (looks_throw _).atomic ?_
  refine (looks_liftExcept _).bind_atomic fun _ => ?_
  refine ((succeeds_modify _).bind fun _ => ?_).atomic
  refine (succeeds_modify _).bind fun _ => (succeeds_modify _).bind fun _ => ?_
  refine (succeeds_modify _).bind fun _ => .ite (succeeds_pure _) ?_
  exact succeeds_get.bind fun _ => succeeds_pure _

/-- An operation that is refused leaves the stack as it was. -/
theorem atomic_perform (op : Operation) : op.perform.Atomic := by
  cases op with
  | push item => exact (atomic_push item).bind_succeeds fun _ => succeeds_pure _
  | pop => exact atomic_pop.bind_succeeds fun _ => succeeds_pure _
  | replaceRange start count items => exact atomic_replaceRange start count items
  | clear => exact ((succeeds_total _).bind fun _ => succeeds_pure _).atomic
  | restore old => exact ((succeeds_total _).bind fun _ => succeeds_pure _).atomic

/-! ## One operation -/

theorem push_fails_iff {item : Item} :
    (∃ err, s.push item = .error err ∧ err.kind = kind) ↔ s.Refuses (.push item) kind := by
  simp only [push_eq_error, checkDepth_fails_iff]
  constructor
  · rintro ⟨h, rfl⟩
    exact .full h
  · intro h
    cases h with
    | full h => exact ⟨h, rfl⟩

theorem pop_fails_iff :
    (∃ err, s.pop = .error err ∧ err.kind = kind) ↔ s.Refuses .pop kind := by
  constructor
  · rintro ⟨err, h, rfl⟩
    rw [pop_eq] at h
    split at h
    · cases h
    · next htop =>
        cases h
        exact .empty (List.getLast?_eq_none_iff.mp htop)
  · intro h
    cases h with
    | empty h => exact ⟨.stackUnderflow "pop" 1 0, by simp [pop_eq, top?, h], rfl⟩

theorem length_replaceRange {start count : ℕ} (hrange : start + count ≤ s.size)
    (items : List Item) :
    ((Operation.replaceRange start count items).onList s.items).length =
      s.size - count + items.length := by
  simp only [size] at hrange ⊢
  simp only [Operation.onList, List.length_append, List.length_take, List.length_drop]
  omega

theorem replaceRange_fails_iff {start count : ℕ} {items : List Item} :
    (∃ err, s.replaceRange start count items = .error err ∧ err.kind = kind) ↔
      s.Refuses (.replaceRange start count items) kind := by
  simp only [replaceRange_eq_error]
  constructor
  · rintro ⟨err, ⟨hshort, rfl⟩ | ⟨hrange, hroom⟩, rfl⟩
    · exact .short hshort
    · rw [← length_replaceRange hrange items] at hroom
      obtain ⟨hfull, hkind⟩ := checkDepth_fails_iff.mp ⟨err, hroom, rfl⟩
      rw [hkind]
      exact .crowded hrange hfull
  · intro h
    cases h with
    | short hshort => exact ⟨_, .inl ⟨hshort, rfl⟩, rfl⟩
    | crowded hrange hfull =>
        rw [length_replaceRange hrange items] at hfull
        obtain ⟨err, hroom, hkind⟩ := checkDepth_fails_iff.mpr ⟨hfull, rfl⟩
        exact ⟨err, .inr ⟨hrange, hroom⟩, hkind⟩

theorem attempt_perform (s : Stack) (op : Operation) :
    op.perform.attempt s = match op with
      | .push item => (s.push item).map fun (next, change) => (next, [change])
      | .pop => s.pop.map fun (_, next, change) => (next, [change])
      | .replaceRange start count items => s.replaceRange start count items
      | .clear => .ok (s.clear.1, [s.clear.2])
      | .restore old => .ok ((s.restore old).1, [(s.restore old).2]) := by
  cases op with
  | push item =>
      simp only [Operation.perform, attempt_bind, push]
      cases (StackM.push item).attempt s <;> rfl
  | pop =>
      simp only [Operation.perform, attempt_bind, pop]
      cases StackM.pop.attempt s <;> rfl
  | replaceRange | clear | restore => rfl

theorem perform_fails_iff (op : Operation) :
    (∃ err left, op.perform s = .error err left ∧ err.kind = kind) ↔ s.Refuses op kind := by
  rw [exists_error_iff, attempt_perform]
  cases op with
  | push item => simpa only [map_eq_error] using push_fails_iff
  | pop => simpa only [map_eq_error] using pop_fails_iff
  | replaceRange start count items => exact replaceRange_fails_iff
  | clear => simpa using (nofun : ¬ s.Refuses .clear kind)
  | restore old => simpa using (nofun : ¬ s.Refuses (.restore old) kind)

theorem perform_eq_ok (h : op.perform s = .ok changes next) :
    next = s.update (op.onList s.items) ∧ Change.replay? s.items changes = some next.items := by
  rw [← attempt_eq_ok, attempt_perform] at h
  cases op with
  | push item =>
      obtain ⟨⟨above, change⟩, hpush, h⟩ := map_eq_ok.mp h
      obtain ⟨rfl, rfl⟩ := Prod.mk.inj h
      refine ⟨?_, (advances_push hpush).replay⟩
      rw [push_eq] at hpush
      obtain ⟨_, _, hpush⟩ := bind_eq_ok.mp hpush
      exact (Prod.mk.inj (Except.ok.inj hpush)).1.symm
  | pop =>
      obtain ⟨⟨item, below, change⟩, hpop, h⟩ := map_eq_ok.mp h
      obtain ⟨rfl, rfl⟩ := Prod.mk.inj h
      refine ⟨?_, (advances_pop hpop).replay⟩
      rw [pop_eq] at hpop
      split at hpop
      · exact (Prod.mk.inj (Prod.mk.inj (Except.ok.inj hpop)).2).1.symm
      · cases hpop
  | replaceRange start count items =>
      obtain ⟨hnext, hreplay, -⟩ := replay_replaceRange h
      exact ⟨hnext, hreplay⟩
  | clear =>
      obtain ⟨rfl, rfl⟩ := Prod.mk.inj (Except.ok.inj h)
      exact ⟨rfl, (advances_clear s).replay⟩
  | restore old =>
      obtain ⟨rfl, rfl⟩ := Prod.mk.inj (Except.ok.inj h)
      exact ⟨rfl, (advances_restore s old).replay⟩

/-- An operation that is not refused stays within the bound. Restoring asks for no room, so that the
items have to be such as the stack held before. -/
theorem admits_onList (hs : s.Admits s.size)
    (hold : ∀ old, op = .restore old → s.Admits old.items.length)
    (hserved : ¬ s.Refuses op .stackOverflow ∧ ¬ s.Refuses op .stackUnderflow) :
    s.Admits (op.onList s.items).length := by
  cases op with
  | push item =>
      by_contra h
      refine hserved.1 (.full ?_)
      simpa [Operation.onList, size] using h
  | pop => exact hs.mono (by simp [Operation.onList, size])
  | replaceRange start count items =>
      by_contra h
      by_cases hshort : s.size < start + count
      · exact hserved.2 (.short hshort)
      · exact hserved.1 (.crowded (Nat.le_of_not_lt hshort) h)
  | clear => exact hs.mono (Nat.zero_le _)
  | restore old => exact hold old rfl

theorem refines (hs : s.Admits s.size)
    (hold : ∀ old, op = .restore old → s.Admits old.items.length) : s.Refines op where
  refuses_iff kind := perform_fails_iff op
  refused := atomic_perform op s
  served next changes h := by
    obtain ⟨rfl, hreplay⟩ := perform_eq_ok h
    refine ⟨rfl, rfl, rfl, ?_, hreplay⟩
    have hserved : ∀ kind, ¬ s.Refuses op kind := by
      intro kind hrefuses
      obtain ⟨err, left, herr, -⟩ := (perform_fails_iff op).mpr hrefuses
      rw [h] at herr
      cases herr
    exact admits_onList hs hold ⟨hserved _, hserved _⟩

/-! ## Runs of operations -/

/-- A stack that operations lead to, with the snapshots that can have been taken on the way. It
starts from any items within its bound, and what is restored was taken before. -/
inductive Trail : Stack → List Snapshot → Prop where
  | start {s : Stack} (h : s.Admits s.size) : Trail s [s.toSnapshot]
  | step {s : Stack} {taken : List Snapshot} {op : Operation} (h : Trail s taken)
      (hown : ∀ old, op = .restore old → old ∈ taken) :
      Trail (s.after op) ((s.after op).toSnapshot :: taken)

theorem after_cases (s : Stack) (op : Operation) :
    s.after op = s ∨ ∃ changes, op.perform s = .ok changes (s.after op) := by
  unfold after outcome
  cases h : op.perform s with
  | ok changes next => exact .inr ⟨changes, rfl⟩
  | error err left => exact .inl (atomic_perform op s err left h)

theorem maxDepth_after (s : Stack) (op : Operation) : (s.after op).maxDepth = s.maxDepth := by
  rcases s.after_cases op with hrefused | ⟨changes, hserved⟩
  · rw [hrefused]
  · rw [(perform_eq_ok hserved).1, maxDepth_update]

theorem admits_after (s : Stack) (op : Operation) (size : ℕ) :
    (s.after op).Admits size ↔ s.Admits size := by
  rw [Admits, maxDepth_after, Admits]

theorem Refines.admits (h : s.Refines op) (hs : s.Admits s.size) :
    s.Admits (s.after op).size := by
  rcases s.after_cases op with hrefused | ⟨changes, hserved⟩
  · rw [hrefused]
    exact hs
  · rw [← admits_after s op]
    exact (h.served _ changes hserved).admits

theorem Trail.admits {taken : List Snapshot} (h : Trail s taken) :
    s.Admits s.size ∧ ∀ old ∈ taken, s.Admits old.items.length := by
  induction h with
  | start h => exact ⟨h, List.forall_mem_singleton.mpr h⟩
  | @step s taken op _ hown ih =>
      have hold : ∀ old, op = .restore old → s.Admits old.items.length :=
        fun old hop => ih.2 old (hown old hop)
      have hnext : s.Admits (s.after op).size := (refines ih.1 hold).admits ih.1
      simp only [admits_after]
      exact ⟨hnext, List.forall_mem_cons.mpr ⟨hnext, ih.2⟩⟩

/-- On every stack that operations lead to, every operation refines the one on lists. A range is
refused for want of items when it ends behind the top, and otherwise for want of room when what
would come of it exceeds the bound. -/
theorem operations_refine_lists {taken : List Snapshot} (htrail : Trail s taken) {op : Operation}
    (hown : ∀ old, op = .restore old → old ∈ taken) :
    s.Refines op ∧ ∀ start count items,
      ((∃ err left, StackM.replaceRange start count items s = .error err left ∧
          err.kind = .stackUnderflow) ↔ s.size < start + count) ∧
      (start + count ≤ s.size →
        ((∃ err left, StackM.replaceRange start count items s = .error err left ∧
            err.kind = .stackOverflow) ↔
          ∃ limit ∈ s.maxDepth,
            limit < (s.items.take start ++ items ++ s.items.drop (start + count)).length)) := by
  obtain ⟨hs, holds⟩ := htrail.admits
  refine ⟨refines hs fun old hop => holds old (hown old hop), fun start count items => ⟨?_, ?_⟩⟩
  · refine (perform_fails_iff (.replaceRange start count items)).trans ⟨fun h => ?_, .short⟩
    cases h with
    | short h => exact h
  · intro hrange
    refine (perform_fails_iff (.replaceRange start count items)).trans ⟨?_, ?_⟩
    · intro h
      cases h with
      | crowded _ h => simpa [Admits, Operation.onList] using h
    · intro h
      refine .crowded hrange ?_
      simpa [Admits, Operation.onList] using h

/-- An item is pushed on a stack for one, a second one is refused, and the empty stack is
restored. -/
theorem operations_refine_lists_of_single :
    let item : Item := ⟨Chain.literal (.int 1) {}, .int 1⟩
    let s := (Stack.empty (some 1)).after (.push item)
    (s.items = [item] ∧ s.Refuses (.push item) .stackOverflow) ∧
      s.Refines (.restore {}) ∧ (s.after (.restore {})).items = [] := by
  intro item s
  have hempty : Trail (Stack.empty (some 1)) [{}] := .start (by simp [Admits, empty, size])
  have htrail : Trail s [s.toSnapshot, {}] := hempty.step (by simp)
  have hown : ∀ old, Operation.restore {} = .restore old → old ∈ [s.toSnapshot, {}] := by simp
  refine ⟨⟨rfl, .full ?_⟩, (operations_refine_lists htrail hown).1, rfl⟩
  rw [admits_after]
  intro hroom
  exact absurd (hroom 1 rfl) (by decide)

end ReversePolish.Stack
