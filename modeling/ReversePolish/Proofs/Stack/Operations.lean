import Mathlib.Data.List.Forall2
import ReversePolish.Proofs.Outcome
import ReversePolish.Session.Evaluator

/-! # The operations of a stack by its topmost items

Each operation takes its operands off the end of the items and puts others there. What lies below
stays. -/

namespace ReversePolish

/-! ## Edits of any list -/

/-- What an edit makes of a list whose last element is the top. -/
def Edit.rearrange {α : Type} (xs : List α) : Edit → List α
  | .clear => []
  | .pop => xs.dropLast
  | .dup => xs ++ xs.drop (xs.length - 1)
  | .swap => xs.take (xs.length - 2) ++ (xs.drop (xs.length - 2)).reverse

/-- Edits make nothing new. -/
theorem Edit.rearrange_subset {α : Type} (xs : List α) (edit : Edit) : edit.rearrange xs ⊆ xs := by
  cases edit with
  | clear => exact List.nil_subset _
  | pop => exact List.dropLast_subset _
  | dup => exact List.append_subset.mpr ⟨List.Subset.refl _, List.drop_subset _ _⟩
  | swap =>
      exact List.append_subset.mpr ⟨List.take_subset _ _,
        List.reverse_subset.mpr (List.drop_subset _ _)⟩

theorem Edit.forall₂_rearrange {α β : Type} {R : α → β → Prop} {xs : List α} {ys : List β}
    (h : List.Forall₂ R xs ys) (edit : Edit) :
    List.Forall₂ R (edit.rearrange xs) (edit.rearrange ys) := by
  cases edit with
  | clear => exact .nil
  | pop =>
      rw [rearrange, rearrange, List.dropLast_eq_take, List.dropLast_eq_take, h.length_eq]
      exact List.forall₂_take _ h
  | dup =>
      rw [rearrange, rearrange, h.length_eq]
      exact List.rel_append h (List.forall₂_drop _ h)
  | swap =>
      rw [rearrange, rearrange, h.length_eq]
      exact List.rel_append (List.forall₂_take _ h) (List.rel_reverse (List.forall₂_drop _ h))

namespace Stack

open Outcome

variable {s next : Stack} {below operands : List Item} {changes : List (Change Item)}

/-! ## Room -/

theorem checkDepth_of_unbounded (h : s.maxDepth = none) (size : ℕ) :
    s.checkDepth size = .ok () := by
  simp [checkDepth, h]

theorem checkDepth_eq_error {size : ℕ} {err : Error} :
    s.checkDepth size = .error err ↔
      ∃ limit, s.maxDepth = some limit ∧ limit < size ∧ err = .stackOverflow limit := by
  simp only [checkDepth]
  cases h : s.maxDepth with
  | none => simp
  | some limit =>
      by_cases hlimit : limit < size
      · simp [hlimit, eq_comm]
      · simp [hlimit]

theorem push_eq_error {item : Item} {err : Error} :
    s.push item = .error err ↔ s.checkDepth (s.size + 1) = .error err := by
  rw [push_eq, bind_eq_error]
  simp

theorem replaceRange_eq_error {start count : ℕ} {items : List Item} {err : Error} :
    s.replaceRange start count items = .error err ↔
      (s.size < start + count ∧
        err = .stackUnderflow "replace" (min (start + count) greatestCount) s.size) ∨
      (start + count ≤ s.size ∧ s.checkDepth (s.size - count + items.length) = .error err) := by
  rw [replaceRange_eq]
  by_cases hshort : s.size < start + count
  · simp [hshort, Nat.not_le.mpr hshort, eq_comm]
  · simp [hshort, Nat.le_of_not_lt hshort, bind_eq_error]

theorem push_of_unbounded (h : s.maxDepth = none) (item : Item) :
    s.push item = .ok (s.update (s.items ++ [item]), .add item) := by
  simp [push_eq, checkDepth_of_unbounded h, bind, Except.bind]

theorem items_of_push {item : Item} {c : Change Item} (h : s.push item = .ok (next, c)) :
    next.items = s.items ++ [item] := by
  rw [push_eq] at h
  obtain ⟨_, _, h⟩ := bind_eq_ok.mp h
  obtain ⟨rfl, rfl⟩ := Prod.mk.inj (Except.ok.inj h)
  rfl

/-! ## Operands -/

theorem exists_operands {n : ℕ} (h : n ≤ s.size) :
    ∃ below operands, s.items = below ++ operands ∧ operands.length = n := by
  refine ⟨s.items.take (s.size - n), s.items.drop (s.size - n), ?_, ?_⟩
  · rw [List.take_append_drop]
  · rw [List.length_drop]
    exact Nat.sub_sub_self h

theorem size_eq (hitems : s.items = below ++ operands) :
    s.size = below.length + operands.length := by
  rw [size, hitems, List.length_append]

theorem replaceRange_top (hitems : s.items = below ++ operands) (items : List Item) :
    s.replaceRange below.length operands.length items =
      (s.checkDepth (below.length + items.length)).map fun _ =>
        (s.update (below ++ items),
          List.replicate operands.length .remove ++ items.map .add) := by
  have hsize := size_eq hitems
  have hroom : s.size - operands.length + items.length = below.length + items.length := by omega
  have hfits : ¬ s.size < below.length + operands.length := by omega
  rw [replaceRange_eq, if_neg hfits, hroom, hitems]
  cases s.checkDepth (below.length + items.length) with
  | error err => rfl
  | ok _ => simp [bind, Except.bind, Except.map, hsize]

theorem items_of_replaceRange_top (hitems : s.items = below ++ operands) {items : List Item}
    (h : s.replaceRange below.length operands.length items = .ok (next, changes)) :
    next.items = below ++ items := by
  rw [replaceRange_top hitems] at h
  obtain ⟨_, _, h⟩ := map_eq_ok.mp h
  obtain ⟨rfl, rfl⟩ := Prod.mk.inj h
  rfl

theorem operate_of_short {limits : Limits} {op : Operator} (h : s.size < op.arity) :
    s.operate limits op = .error (.stackUnderflow op.name op.arity s.size) := by
  rw [operate_def, if_pos h]

/-- The item that an operator makes of its operands. -/
def resultItem (op : Operator) (operands : List Item) (result : Value) : Item :=
  ⟨Chain.application (operands.map Item.input) op.name, result⟩

theorem operate_eq {limits : Limits} {op : Operator} (hitems : s.items = below ++ operands)
    (harity : operands.length = op.arity) :
    s.operate limits op = op.apply limits (operands.map Item.result) >>= fun result =>
      s.replaceRange below.length operands.length [resultItem op operands result] := by
  have hsize := size_eq hitems
  have hstart : s.size - op.arity = below.length := by omega
  rw [operate_def, if_neg (by omega)]
  simp only [hstart, hitems, List.drop_left, harity]
  rfl

theorem items_of_operate {limits : Limits} {op : Operator}
    (h : s.operate limits op = .ok (next, changes)) :
    ∃ below operands result, s.items = below ++ operands ∧ operands.length = op.arity ∧
      op.apply limits (operands.map Item.result) = .ok result ∧
      next.items = below ++ [resultItem op operands result] := by
  by_cases hfew : s.size < op.arity
  · rw [operate_of_short hfew] at h
    cases h
  · obtain ⟨below, operands, hitems, harity⟩ := exists_operands (Nat.le_of_not_lt hfew)
    rw [operate_eq hitems harity] at h
    obtain ⟨result, hresult, h⟩ := bind_eq_ok.mp h
    exact ⟨below, operands, result, hitems, harity, hresult, items_of_replaceRange_top hitems h⟩

/-! ## Edits -/

theorem edit_pop {top : Item} (hitems : s.items = below ++ [top]) :
    s.runCommand (.edit .pop) = .ok (s.update below, [.remove]) := by
  simp [runCommand_pop, pop_eq, top?, hitems, Except.map]

theorem edit_dup {top : Item} (hitems : s.items = below ++ [top]) :
    s.runCommand (.edit .dup) = (s.push top).map fun (above, change) => (above, [change]) := by
  simp [runCommand_dup, top?, hitems]

theorem edit_swap {x y : Item} (hitems : s.items = below ++ [x, y]) :
    s.runCommand (.edit .swap) = s.replaceRange below.length 2 [y, x] := by
  have hsize : s.size - 2 = below.length := by simp [size, hitems]
  simp only [runCommand_swap, hsize]
  rw [hitems, List.drop_left]

theorem edit_of_empty {edit : Edit} (hedit : edit ≠ .clear) (hitems : s.items = []) :
    ∃ op needed, s.runCommand (.edit edit) = .error (.stackUnderflow op needed 0) := by
  cases edit with
  | clear => exact absurd rfl hedit
  | pop => exact ⟨"pop", 1, by simp [runCommand_pop, pop_eq, top?, hitems, Except.map]⟩
  | dup => exact ⟨"dup", 1, by simp [runCommand_dup, top?, hitems]⟩
  | swap => exact ⟨"swap", 2, by simp [runCommand_swap, size, hitems]⟩

theorem edit_swap_of_single {top : Item} (hitems : s.items = [top]) :
    s.runCommand (.edit .swap) = .error (.stackUnderflow "swap" 2 1) := by
  simp [runCommand_swap, size, hitems]

theorem items_of_edit {edit : Edit} (h : s.runCommand (.edit edit) = .ok (next, changes)) :
    next.items = edit.rearrange s.items := by
  by_cases hclear : edit = .clear
  · subst hclear
    obtain ⟨rfl, rfl⟩ := Prod.mk.inj (Except.ok.inj h)
    rfl
  rcases List.eq_nil_or_concat' s.items with hitems | ⟨below, top, hitems⟩
  · obtain ⟨op, needed, hshort⟩ := edit_of_empty hclear hitems
    rw [hshort] at h
    cases h
  · cases edit with
    | clear => exact absurd rfl hclear
    | pop =>
        rw [edit_pop hitems] at h
        obtain ⟨rfl, rfl⟩ := Prod.mk.inj (Except.ok.inj h)
        simp [Edit.rearrange, hitems]
    | dup =>
        rw [edit_dup hitems] at h
        obtain ⟨⟨above, c⟩, hpush, h⟩ := map_eq_ok.mp h
        obtain ⟨rfl, rfl⟩ := Prod.mk.inj h
        rw [items_of_push hpush]
        simp [Edit.rearrange, hitems]
    | swap =>
        rcases List.eq_nil_or_concat' below with rfl | ⟨below, other, rfl⟩
        · rw [edit_swap_of_single hitems] at h
          cases h
        · rw [List.append_assoc, List.cons_append, List.nil_append] at hitems
          rw [edit_swap hitems] at h
          rw [items_of_replaceRange_top hitems h, hitems]
          simp [Edit.rearrange]

/-- A command for the stack is refused for want of items or of room only: the operands of a swap are
there where the stack is deep enough. -/
theorem runCommand_refused {c : Command} (hstill : c.isTravel = false) {err : Error}
    (h : s.runCommand c = .error err) :
    (∃ op needed available, err = .stackUnderflow op needed available) ∨
      ∃ size, s.checkDepth size = .error err := by
  rcases c with (_ | _ | _ | _) | t
  case edit.clear => cases h
  case edit.pop =>
      rw [runCommand_pop, map_eq_error, pop_eq] at h
      split at h
      · cases h
      · exact .inl ⟨_, _, _, (Except.error.inj h).symm⟩
  case edit.dup =>
      rw [runCommand_dup] at h
      split at h
      · exact .inr ⟨_, push_eq_error.mp (map_eq_error.mp h)⟩
      · exact .inl ⟨_, _, _, (Except.error.inj h).symm⟩
  case edit.swap =>
      rw [runCommand_swap] at h
      split at h
      · rcases replaceRange_eq_error.mp h with ⟨-, rfl⟩ | ⟨-, hroom⟩
        · exact .inl ⟨_, _, _, rfl⟩
        · exact .inr ⟨_, hroom⟩
      · exact .inl ⟨_, _, _, (Except.error.inj h).symm⟩
  case travel => cases hstill

end Stack

end ReversePolish
