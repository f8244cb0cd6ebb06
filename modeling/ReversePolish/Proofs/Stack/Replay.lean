import Mathlib.Data.List.Induction
import ReversePolish.Proofs.Outcome
import ReversePolish.Session.Evaluator

/-! # What a stack tells of its changes

Every operation that succeeds makes the next version, and tells at least one change. Its changes,
replayed on the items before, give the items after it. -/

namespace ReversePolish

namespace Change

variable {α β : Type}

/-- Each removal takes one item off a list that ends in as many items. -/
theorem replay?_replicate_remove (below above : List α) :
    replay? (below ++ above) (List.replicate above.length remove) = some below := by
  induction above using List.reverseRecOn with
  | nil => simp [replay?]
  | append_singleton above top ih =>
      rw [← List.append_assoc, List.length_append, List.length_singleton, List.replicate_succ]
      cases h : below ++ above ++ [top] with
      | nil => simp at h
      | cons x xs =>
          rw [replay?, apply, ← h, List.dropLast_concat]
          · exact ih
          · simp

theorem replay?_map_add (items added : List α) :
    replay? items (added.map add) = some (items ++ added) := by
  induction added generalizing items with
  | nil => simp [replay?]
  | cons x xs ih =>
      rw [List.map_cons, replay?, apply, ih]
      · simp
      · simp

/-- The end of a list gives way to another end. -/
theorem replay?_replace_end (below removed added : List α) :
    replay? (below ++ removed) (List.replicate removed.length remove ++ added.map add) =
      some (below ++ added) := by
  rw [replay?_append, replay?_replicate_remove, Option.bind_some, replay?_map_add]

/-- A view of the items follows their changes. -/
theorem replay?_map (f : α → β) (items : List α) (changes : List (Change α)) :
    replay? (items.map f) (changes.map (map f)) = (replay? items changes).map (List.map f) := by
  fun_induction replay? items changes with
  | case1 items => rfl
  | case2 => rfl
  | case3 items c changes h ih =>
      rw [List.map_cons, replay?, ← map_apply, ih]
      intro hitems hc
      cases c with
      | remove => exact h (List.map_eq_nil_iff.mp hitems) rfl
      | add item => cases hc
      | replace new => cases hc

end Change

namespace Stack

open Outcome

/-- The next version of a stack, behind changes that are told in full. -/
structure Advances (s next : Stack) (changes : List (Change Item)) : Prop where
  replay : Change.replay? s.items changes = some next.items
  changed : changes ≠ []
  version : next.version = s.version + 1
  maxDepth : next.maxDepth = s.maxDepth

theorem advances_push {s next : Stack} {item : Item} {c : Change Item}
    (h : s.push item = .ok (next, c)) : s.Advances next [c] := by
  rw [push_eq] at h
  obtain ⟨_, _, h⟩ := bind_eq_ok.mp h
  obtain ⟨rfl, rfl⟩ := Prod.mk.inj (Except.ok.inj h)
  exact ⟨Change.replay?_map_add s.items [item], by simp, rfl, rfl⟩

theorem advances_pop {s below : Stack} {item : Item} {c : Change Item}
    (h : s.pop = .ok (item, below, c)) : s.Advances below [c] := by
  rw [pop_eq] at h
  split at h
  · next top htop =>
      obtain ⟨rfl, rfl, rfl⟩ : item = top ∧ below = s.update s.items.dropLast ∧ c = .remove := by
        simpa [eq_comm] using h
      obtain ⟨items, hitems⟩ := List.getLast?_eq_some_iff.mp htop
      refine ⟨?_, by simp, rfl, rfl⟩
      rw [items_update, hitems, List.dropLast_concat]
      exact Change.replay?_replicate_remove items [item]
  · cases h

theorem advances_clear (s : Stack) : s.Advances s.clear.1 [s.clear.2] :=
  ⟨by simp [clear, Change.replay?, Change.apply], by simp, rfl, rfl⟩

theorem advances_restore (s : Stack) (old : Snapshot) :
    s.Advances (s.restore old).1 [(s.restore old).2] :=
  ⟨by simp [restore, Change.replay?, Change.apply], by simp, rfl, rfl⟩

/-- At the top the replaced items go away one by one and the others come one by one; elsewhere all
items are told anew. -/
theorem replay_replaceRange {s next : Stack} {start count : Nat} {items : List Item}
    {changes : List (Change Item)}
    (h : s.replaceRange start count items = .ok (next, changes)) :
    next = s.update (s.items.take start ++ items ++ s.items.drop (start + count)) ∧
      Change.replay? s.items changes = some next.items ∧ (items ≠ [] → changes ≠ []) := by
  rw [replaceRange_eq] at h
  split at h
  · cases h
  · obtain ⟨_, _, h⟩ := bind_eq_ok.mp h
    obtain ⟨rfl, rfl⟩ := Prod.mk.inj (Except.ok.inj h)
    refine ⟨rfl, ?_⟩
    split
    · next htop =>
        have hcount : (s.items.drop start).length = count := by
          simp only [size] at htop
          rw [List.length_drop]
          omega
        have hbehind : s.items.drop (start + count) = [] := by
          rw [htop, size, List.drop_length]
        refine ⟨?_, fun hne => by simp [hne]⟩
        rw [items_update, hbehind, List.append_nil]
        simpa only [List.take_append_drop, hcount] using
          Change.replay?_replace_end (s.items.take start) (s.items.drop start) items
    · exact ⟨by simp [Change.replay?, Change.apply], by simp⟩

/-- A replacement of nothing by nothing at the top would be told by no change at all. -/
theorem advances_replaceRange {s next : Stack} {start count : Nat} {items : List Item}
    {changes : List (Change Item)} (hne : items ≠ [])
    (h : s.replaceRange start count items = .ok (next, changes)) : s.Advances next changes := by
  obtain ⟨rfl, hreplay, hchanged⟩ := replay_replaceRange h
  exact ⟨hreplay, hchanged hne, rfl, rfl⟩

theorem advances_operate {s next : Stack} {limits : Limits} {op : Operator}
    {changes : List (Change Item)} (h : s.operate limits op = .ok (next, changes)) :
    s.Advances next changes := by
  rw [operate_def] at h
  split at h
  · cases h
  · obtain ⟨result, _, h⟩ := bind_eq_ok.mp h
    exact advances_replaceRange (by simp) h

theorem advances_runCommand {s next : Stack} {c : Command} {changes : List (Change Item)}
    (h : s.runCommand c = .ok (next, changes)) : s.Advances next changes := by
  rcases c with (_ | _ | _ | _) | t
  case edit.clear =>
      obtain ⟨rfl, rfl⟩ := Prod.mk.inj (Except.ok.inj h)
      exact advances_clear s
  case edit.pop =>
      rw [runCommand_pop] at h
      obtain ⟨⟨item, below, c⟩, hpop, h⟩ := map_eq_ok.mp h
      obtain ⟨rfl, rfl⟩ := Prod.mk.inj h
      exact advances_pop hpop
  case edit.dup =>
      rw [runCommand_dup] at h
      split at h
      · obtain ⟨⟨above, c⟩, hpush, h⟩ := map_eq_ok.mp h
        obtain ⟨rfl, rfl⟩ := Prod.mk.inj h
        exact advances_push hpush
      · cases h
  case edit.swap =>
      rw [runCommand_swap] at h
      split at h
      · exact advances_replaceRange (by simp) h
      · cases h
  case travel => cases h

end Stack

end ReversePolish
