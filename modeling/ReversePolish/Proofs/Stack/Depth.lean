import ReversePolish.Proofs.Persistence
import ReversePolish.Proofs.Stack.Operations

/-! # Stacks of bounded depth

A bounded stack does what it would do without its bound, and then refuses to hold more items than it
may. Nothing else on a stack asks for room. -/

namespace ReversePolish

open Outcome

/-- Whether the error is another than that a stack is full. -/
def Error.NoOverflow (err : Error) : Prop := err.kind ≠ .stackOverflow

theorem Error.IsTextual.noOverflow {err : Error} (h : err.IsTextual) : err.NoOverflow :=
  ErrorKind.ne_stackOverflow_of_isTextual h

theorem Error.IsOperational.noOverflow {err : Error} (h : err.IsOperational) : err.NoOverflow := by
  intro hkind
  exact ErrorKind.not_mem_of_isOperational h (by simp [hkind])

namespace Stack

/-- The stack may hold so many items, and holds no more. -/
structure Bounded (limit : ℕ) (s : Stack) : Prop where
  maxDepth : s.maxDepth = some limit
  size_le : s.size ≤ limit

/-- The stack without a bound. -/
def unbounded (s : Stack) : Stack := { s with maxDepth := none }

/-- Gives the bound to a stack that does not exceed it. -/
def enforce {α : Type} (limit : ℕ) (x : Stack × α) : Except Error (Stack × α) :=
  if limit < x.1.size then .error (.stackOverflow limit)
  else .ok ({ x.1 with maxDepth := some limit }, x.2)

variable {limit : ℕ} {s : Stack}

@[simp]
theorem maxDepth_unbounded (s : Stack) : s.unbounded.maxDepth = none := rfl

/-- What is told of an operation has no say in whether the bound is kept. -/
theorem map_bind_enforce {α β : Type} (f : α → β) (x : Except Error (Stack × α)) :
    ((x >>= enforce limit).map fun (next, told) => (next, f told)) =
      (x.map fun (next, told) => (next, f told)) >>= enforce limit := by
  cases x with
  | error err => rfl
  | ok moved =>
      change (enforce limit moved).map _ = enforce limit (moved.1, f moved.2)
      unfold enforce
      split
      · rfl
      · rfl

/-! ## Operations with and without the bound -/

theorem checkDepth_of_bound (h : s.maxDepth = some limit) (size : ℕ) :
    s.checkDepth size = if limit < size then .error (.stackOverflow limit) else .ok () := by
  rw [checkDepth, h]

theorem enforce_update {α : Type} (h : s.maxDepth = some limit) (items : List Item) (told : α) :
    enforce limit (s.unbounded.update items, told) =
      (s.checkDepth items.length).map fun _ => (s.update items, told) := by
  have hupdate : { s.unbounded.update items with maxDepth := some limit } = s.update items := by
    rw [← h]
    rfl
  have hsize : (s.unbounded.update items).size = items.length := rfl
  rw [checkDepth_of_bound h, enforce, hupdate, hsize]
  split
  · rfl
  · rfl

theorem enforce_update_of_le {α : Type} (h : s.maxDepth = some limit) {items : List Item}
    (hle : items.length ≤ limit) (told : α) :
    enforce limit (s.unbounded.update items, told) = .ok (s.update items, told) := by
  rw [enforce_update h, checkDepth_of_bound h, if_neg (by omega)]
  rfl

theorem push_eq_enforce (h : s.maxDepth = some limit) (item : Item) :
    s.push item = s.unbounded.push item >>= enforce limit := by
  have hroomy : s.unbounded.push item = .ok (s.unbounded.update (s.items ++ [item]), .add item) :=
    push_of_unbounded s.maxDepth_unbounded item
  rw [hroomy]
  refine Eq.trans ?_ (enforce_update h (s.items ++ [item]) (Change.add item)).symm
  rw [List.length_append, push_eq]
  rfl

theorem replaceRange_eq_enforce (h : s.maxDepth = some limit) {below operands : List Item}
    (hitems : s.items = below ++ operands) (items : List Item) :
    s.replaceRange below.length operands.length items =
      s.unbounded.replaceRange below.length operands.length items >>= enforce limit := by
  have hroomy : s.unbounded.items = below ++ operands := hitems
  rw [replaceRange_top hitems, replaceRange_top hroomy,
    checkDepth_of_unbounded s.maxDepth_unbounded]
  refine Eq.trans ?_ (enforce_update h (below ++ items) _).symm
  rw [List.length_append]

theorem operate_eq_enforce (h : s.maxDepth = some limit) (limits : Limits) (op : Operator) :
    s.operate limits op = s.unbounded.operate limits op >>= enforce limit := by
  by_cases hfew : s.size < op.arity
  · have hroomy : s.unbounded.size < op.arity := hfew
    rw [operate_of_short hfew, operate_of_short hroomy]
    rfl
  · obtain ⟨below, operands, hitems, harity⟩ := exists_operands (Nat.le_of_not_lt hfew)
    have hroomy : s.unbounded.items = below ++ operands := hitems
    rw [operate_eq hitems harity, operate_eq hroomy harity]
    cases op.apply limits (operands.map Item.result) with
    | error err => rfl
    | ok result => exact replaceRange_eq_enforce h hitems _

theorem edit_eq_enforce (h : s.Bounded limit) (edit : Edit) :
    s.runCommand (.edit edit) = s.unbounded.runCommand (.edit edit) >>= enforce limit := by
  have hsize := h.size_le
  by_cases hclear : edit = .clear
  · subst hclear
    have hnil : ([] : List Item).length ≤ limit := Nat.zero_le limit
    exact (enforce_update_of_le h.maxDepth hnil _).symm
  rcases List.eq_nil_or_concat' s.items with hitems | ⟨below, top, hitems⟩
  · cases edit with
    | clear => exact absurd rfl hclear
    | _ =>
        simp [runCommand_pop, runCommand_dup, runCommand_swap, pop_eq, top?, size, unbounded, hitems,
          Except.map, bind, Except.bind]
  · have hroomy : s.unbounded.items = below ++ [top] := hitems
    rw [size, hitems, List.length_append] at hsize
    cases edit with
    | clear => exact absurd rfl hclear
    | pop =>
        rw [edit_pop hitems, edit_pop hroomy]
        exact (enforce_update_of_le h.maxDepth (by omega) _).symm
    | dup =>
        rw [edit_dup hitems, edit_dup hroomy, push_eq_enforce h.maxDepth]
        exact map_bind_enforce (fun change => [change]) _
    | swap =>
        rcases List.eq_nil_or_concat' below with rfl | ⟨below, other, rfl⟩
        · rw [edit_swap_of_single hitems, edit_swap_of_single hroomy]
          rfl
        · rw [List.append_assoc, List.cons_append, List.nil_append] at hitems
          have hroomy : s.unbounded.items = below ++ [other, top] := hitems
          rw [edit_swap hitems, edit_swap hroomy]
          exact replaceRange_eq_enforce h.maxDepth hitems _

/-! ## Without a bound -/

theorem replaceRange_unbounded_raises (h : s.maxDepth = none) (start count : ℕ)
    (items : List Item) : Raises Error.NoOverflow (s.replaceRange start count items) := by
  rw [replaceRange_eq, checkDepth_of_unbounded h]
  exact .ite nofun trivial

theorem operate_unbounded_raises (h : s.maxDepth = none) {limits : Limits} {op : Operator}
    (happly : ∀ args, Raises Error.NoOverflow (op.apply limits args)) :
    Raises Error.NoOverflow (s.operate limits op) := by
  rw [operate_def]
  refine .ite nofun ((happly _).bind fun result => ?_)
  exact replaceRange_unbounded_raises h _ _ _

theorem runCommand_unbounded_raises (h : s.maxDepth = none) {c : Command}
    (hstill : c.isTravel = false) : Raises Error.NoOverflow (s.runCommand c) := by
  cases hrun : s.runCommand c with
  | ok moved => trivial
  | error err =>
      rcases runCommand_refused hstill hrun with ⟨_, _, _, rfl⟩ | ⟨size, hroom⟩
      · exact nofun
      · rw [checkDepth_of_unbounded h] at hroom
        cases hroom

end Stack

end ReversePolish
