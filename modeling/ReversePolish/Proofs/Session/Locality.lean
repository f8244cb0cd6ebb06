import Mathlib.Data.List.Basic
import ReversePolish.Catalog.Standard
import ReversePolish.Proofs.Session.Meaning
import ReversePolish.Proofs.Session.Submission
import ReversePolish.Proofs.Stack.Operations

/-! # What lies below the operands

Without a limit of depth, tokens that do not run short of operands do the same on a stack with more
items below, and leave those items alone. Only clearing the stack reaches all the way down. -/

namespace ReversePolish

open Outcome

/-! ## Outcomes up to a lack of operands -/

/-- Unless the first computation finds too few operands, the second fails with the same error or
has a result in the given relation. -/
inductive Covers {α β : Type} (r : α → β → Prop) : Except Error α → Except Error β → Prop where
  | given {a : α} {b : β} (h : r a b) : Covers r (.ok a) (.ok b)
  | failed (err : Error) : Covers r (.error err) (.error err)
  | short {err : Error} (h : err.kind = .stackUnderflow) (y : Except Error β) :
      Covers r (.error err) y

namespace Covers

variable {α β γ δ : Type} {r : α → β → Prop} {r' : γ → δ → Prop}

theorem bind {x : Except Error α} {y : Except Error β} {f : α → Except Error γ}
    {g : β → Except Error δ} (h : Covers r x y) (hnext : ∀ a b, r a b → Covers r' (f a) (g b)) :
    Covers r' (x >>= f) (y >>= g) := by
  cases h with
  | given h => exact hnext _ _ h
  | failed err => exact .failed err
  | short h y => exact .short h _

theorem map {x : Except Error α} {y : Except Error β} {f : α → γ} {g : β → δ}
    (h : Covers r x y) (hnext : ∀ a b, r a b → r' (f a) (g b)) :
    Covers r' (x.map f) (y.map g) := by
  cases h with
  | given h => exact .given (hnext _ _ h)
  | failed err => exact .failed err
  | short h y => exact .short h _

theorem foldlM {σ : Type} {f : α → σ → Except Error α} {g : β → σ → Except Error β} {xs : List σ}
    (hstep : ∀ x ∈ xs, ∀ a b, r a b → Covers r (f a x) (g b x)) {a : α} {b : β} (h : r a b) :
    Covers r (xs.foldlM f a) (xs.foldlM g b) := by
  induction xs generalizing a b with
  | nil => exact .given h
  | cons x xs ih =>
      rw [List.foldlM_cons, List.foldlM_cons]
      refine (hstep x List.mem_cons_self a b h).bind fun a' b' h' => ih ?_ h'
      exact fun x hx => hstep x (List.mem_cons_of_mem _ hx)

end Covers

/-! ## Stacks -/

/-- Two stacks without a limit of depth, of which the second has more items below. -/
structure Stack.LiesOn (below : List Item) (s t : Stack) : Prop where
  items : t.items = below ++ s.items
  unbounded : s.maxDepth = none
  unbounded' : t.maxDepth = none

namespace Stack

variable {below : List Item} {s t : Stack}

theorem LiesOn.update (h : LiesOn below s t) (items : List Item) :
    LiesOn below (s.update items) (t.update (below ++ items)) :=
  ⟨rfl, h.unbounded, h.unbounded'⟩

/-- Stacks after an operation, whatever they tell of it. -/
def StillOn (below : List Item) (x y : Stack × List (Change Item)) : Prop := LiesOn below x.1 y.1

theorem LiesOn.push (h : LiesOn below s t) (item : Item) :
    Covers (fun x y => LiesOn below x.1 y.1) (s.push item) (t.push item) := by
  rw [push_of_unbounded h.unbounded, push_of_unbounded h.unbounded', h.items, List.append_assoc]
  exact .given (h.update _)

theorem LiesOn.replaceRange (h : LiesOn below s t) {kept operands : List Item}
    (hitems : s.items = kept ++ operands) (items : List Item) :
    Covers (StillOn below) (s.replaceRange kept.length operands.length items)
      (t.replaceRange (below ++ kept).length operands.length items) := by
  have hitems' : t.items = (below ++ kept) ++ operands := by
    rw [h.items, hitems, List.append_assoc]
  rw [replaceRange_top hitems, replaceRange_top hitems', checkDepth_of_unbounded h.unbounded,
    checkDepth_of_unbounded h.unbounded', List.append_assoc below kept items]
  exact .given (h.update _)

theorem LiesOn.operate (h : LiesOn below s t) (limits : Limits) (op : Operator) :
    Covers (StillOn below) (s.operate limits op) (t.operate limits op) := by
  by_cases hfew : s.size < op.arity
  · rw [operate_of_short hfew]
    exact .short rfl _
  · obtain ⟨kept, operands, hitems, harity⟩ := exists_operands (Nat.le_of_not_lt hfew)
    have hitems' : t.items = (below ++ kept) ++ operands := by
      rw [h.items, hitems, List.append_assoc]
    rw [operate_eq hitems harity, operate_eq hitems' harity]
    cases op.apply limits (operands.map Item.result) with
    | error err => exact .failed err
    | ok result => exact h.replaceRange hitems _

theorem LiesOn.edit (h : LiesOn below s t) {edit : Edit} (hedit : edit ≠ .clear) :
    Covers (StillOn below) (s.runCommand (.edit edit)) (t.runCommand (.edit edit)) := by
  obtain hnil | ⟨kept, top, hitems⟩ := s.items.eq_nil_or_concat'
  · obtain ⟨op, needed, hshort⟩ := edit_of_empty hedit hnil
    rw [hshort]
    exact .short rfl _
  · have hitems' : t.items = (below ++ kept) ++ [top] := by
      rw [h.items, hitems, List.append_assoc]
    cases edit with
    | clear => exact absurd rfl hedit
    | pop =>
        rw [edit_pop hitems, edit_pop hitems']
        exact .given (h.update _)
    | dup =>
        rw [edit_dup hitems, edit_dup hitems']
        exact (h.push top).map fun _ _ h => h
    | swap =>
        obtain rfl | ⟨kept, second, rfl⟩ := kept.eq_nil_or_concat'
        · rw [edit_swap_of_single hitems]
          exact .short rfl _
        · simp only [List.append_assoc, List.cons_append, List.nil_append] at hitems hitems'
          rw [← List.append_assoc] at hitems'
          rw [edit_swap hitems, edit_swap hitems']
          exact h.replaceRange hitems _

end Stack

/-! ## Lines -/

theorem Command.token_of_find? {text : String} {c : Command} (h : find? text = some c) :
    ∃ name ∈ c.names, text = token name := by
  rw [find?] at h
  have hany := List.find?_some h
  obtain ⟨name, hname, htoken⟩ := List.any_eq_true.mp hany
  exact ⟨name, hname, (of_decide_eq_true htoken).symm⟩

/-- The commands that look at more than the topmost items. -/
theorem Command.find?_of_local {text : String} (h : text ∉ ["\\clear", "\\undo", "\\redo"]) :
    find? text ≠ some (.edit .clear) ∧ ∀ t, find? text ≠ some (.travel t) := by
  constructor
  · intro hfind
    obtain ⟨name, hname, rfl⟩ := token_of_find? hfind
    obtain rfl : name = "clear" := by simpa [names, aliases, Command.name] using hname
    exact h (by decide +kernel)
  · intro t hfind
    obtain ⟨name, hname, rfl⟩ := token_of_find? hfind
    cases t with
    | undo =>
        obtain rfl : name = "undo" := by simpa [names, aliases, Command.name] using hname
        exact h (by decide +kernel)
    | redo =>
        obtain rfl : name = "redo" := by simpa [names, aliases, Command.name] using hname
        exact h (by decide +kernel)

/-- Drafts on two such stacks, which hand the same tokens to the presentation. -/
structure Draft.LiesOn (below : List Item) (d d' : Draft) : Prop where
  stack : Stack.LiesOn below d.stack d'.stack
  claimed : d'.claimed = d.claimed

namespace Evaluator

theorem step_liesOn {e : Evaluator} {token : String}
    (htoken : token ∉ ["\\clear", "\\undo", "\\redo"]) {below : List Item} {d d' : Draft}
    (h : Draft.LiesOn below d d') :
    Covers (Draft.LiesOn below) (e.step d token) (e.step d' token) := by
  rw [step, step]
  cases hmeaning : e.meaning token with
  | error err => exact .failed err
  | ok meaning =>
      cases meaning with
      | literal l =>
          exact (h.stack.push _).bind fun _ _ hpush => .given ⟨hpush, h.claimed⟩
      | operator op =>
          exact (h.stack.operate e.limits op).map fun _ _ hop => ⟨hop, h.claimed⟩
      | claimed => exact .given ⟨h.stack, by rw [h.claimed]⟩
      | command c =>
          cases means_iff.mpr hmeaning with
          | command _ _ _ _ hfind =>
              cases c with
              | edit edit =>
                  have hedit : edit ≠ .clear := by
                    rintro rfl
                    exact (Command.find?_of_local htoken).1 hfind
                  exact (h.stack.edit hedit).map fun _ _ hedit => ⟨hedit, h.claimed⟩
              | travel t => exact absurd hfind ((Command.find?_of_local htoken).2 t)

theorem run_liesOn {e : Evaluator} {tokens : List String}
    (htokens : ∀ token ∈ tokens, token ∉ ["\\clear", "\\undo", "\\redo"]) {below : List Item}
    {s t : Stack} (h : Stack.LiesOn below s t) :
    Covers (Draft.LiesOn below) (e.run s tokens) (e.run t tokens) :=
  Covers.foldlM (fun token htoken _ _ hd => step_liesOn (htokens token htoken) hd) ⟨h, rfl⟩

/-- Where there is no limit of depth, the tokens of a line that neither clears the stack nor steps
through the history succeed on any stack put on other items if they succeed on that stack alone,
and make the same items of it, above the others. If they fail, but not for want of operands, they
fail in the same way. -/
theorem run_above (e : Evaluator) (tokens : List String)
    (htokens : ∀ token ∈ tokens, token ∉ ["\\clear", "\\undo", "\\redo"]) {below : List Item}
    {s t : Stack} (h : Stack.LiesOn below s t) :
    (∀ d, e.run s tokens = .ok d →
      ∃ d', e.run t tokens = .ok d' ∧ d'.stack.items = below ++ d.stack.items ∧
        d'.claimed = d.claimed) ∧
      ∀ err, e.run s tokens = .error err → err.kind ≠ .stackUnderflow →
        e.run t tokens = .error err := by
  have hrun : Covers (Draft.LiesOn below) (e.run s tokens) (e.run t tokens) := run_liesOn htokens h
  generalize e.run s tokens = x at hrun ⊢
  generalize e.run t tokens = y at hrun ⊢
  cases hrun with
  | given h => simpa using ⟨h.stack.items, h.claimed⟩
  | failed err => simp
  | short hshort y => simpa using fun h => absurd hshort h

/-- A product and a quotient by zero, on a unit of measurement. -/
theorem run_above_unit :
    let e : Evaluator :=
      ⟨Catalog.standard.toOption.getD .empty, ⟨.onOverflow, 64⟩, {}, fun _ => false⟩
    let item (v : Value) : Item := ⟨Chain.literal v {}, v⟩
    let s : Stack := { items := [item (.int 6), item (.int 0)] }
    let t : Stack := { items := [item (.unit "km"), item (.int 6), item (.int 0)] }
    (∃ d d', e.run s ["\\swap", "*"] = .ok d ∧ e.run t ["\\swap", "*"] = .ok d' ∧
        d'.stack.items = [item (.unit "km")] ++ d.stack.items) ∧
      e.run s ["\\dup", "\\pop", "/"] = .error .divisionByZero ∧
      e.run t ["\\dup", "\\pop", "/"] = .error .divisionByZero := by
  intro e item s t
  have hitems : Stack.LiesOn [item (.unit "km")] s t := ⟨rfl, rfl, rfl⟩
  have hproduct := run_above e ["\\swap", "*"] (by decide) hitems
  have hquotient := run_above e ["\\dup", "\\pop", "/"] (by decide) hitems
  have hok : ((e.run s ["\\swap", "*"]).map fun _ => ()) = .ok () := by decide +kernel
  obtain ⟨d, hd, -⟩ := map_eq_ok.mp hok
  obtain ⟨d', hd', hitems, -⟩ := hproduct.1 d hd
  have hfail : ((e.run s ["\\dup", "\\pop", "/"]).map fun _ => ()) = .error .divisionByZero := by
    decide +kernel
  have herror := map_eq_error.mp hfail
  exact ⟨⟨d, d', hd, hd', hitems⟩, herror, hquotient.2 _ herror (by decide)⟩

end Evaluator

end ReversePolish
