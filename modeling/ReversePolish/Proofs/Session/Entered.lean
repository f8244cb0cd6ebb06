import ReversePolish.Proofs.Session.Derived

/-! # What was entered for an item

An item goes back to tokens: that of its literal, or those of its operands and then the operator.
They move with the item through edits and through the history. -/

namespace ReversePolish

open Outcome

/-- The tokens that were entered for an item, in order. -/
abbrev Entry := List String

namespace Evaluator

variable {e : Evaluator} {R : Entry → Item → Prop}

/-- The entries of the items on a stack after a token. -/
def enter (e : Evaluator) (entries : List Entry) (token : String) : List Entry :=
  match e.meaning token with
  | .ok (.literal _) => entries ++ [[token]]
  | .ok (.operator op) =>
      let start := entries.length - op.arity
      entries.take start ++ [(entries.drop start).flatten ++ [token]]
  | .ok (.command (.edit edit)) => edit.rearrange entries
  | _ => entries

/-- Whether literals are in the relation to their tokens, and results to the tokens of operands
that are, with the operator behind them. -/
structure Traces (e : Evaluator) (R : Entry → Item → Prop) : Prop where
  literal : ∀ token l, Literal.read token = .ok (some l) → R [token] (e.literalItem l)
  result : ∀ token op entries operands result, Literal.read token = .ok none →
    e.catalog.find? token = some op → List.Forall₂ R entries operands →
    operands.length = op.arity →
    op.apply e.limits (operands.map Item.result) = .ok result →
    R (entries.flatten ++ [token]) (Stack.resultItem op operands result)

namespace Traces

theorem rewrites (htraces : e.Traces R) {entries : List Entry} {items items' : List Item}
    (h : List.Forall₂ R entries items) {token : String} (hrewrites : e.Rewrites token items items') :
    List.Forall₂ R (e.enter entries token) items' := by
  cases hrewrites with
  | literal hmeans =>
      rw [enter, hmeans.meaning_eq]
      cases hmeans with
      | literal hread => exact List.rel_append h (.cons (htraces.literal _ _ hread) .nil)
  | @operator op hmeans below operands harity result happly =>
      rw [enter, hmeans.meaning_eq]
      have hstart : entries.length - op.arity = below.length := by
        rw [h.length_eq, List.length_append, harity, Nat.add_sub_cancel]
      have hbelow := List.forall₂_take below.length h
      have hoperands := List.forall₂_drop below.length h
      rw [List.take_left] at hbelow
      rw [List.drop_left] at hoperands
      dsimp only
      rw [hstart]
      cases hmeans with
      | operator hread hfind =>
          exact List.rel_append hbelow
            (.cons (htraces.result _ _ _ _ _ hread hfind hoperands harity happly) .nil)
  | claimed hmeans =>
      rw [enter, hmeans.meaning_eq]
      exact h
  | edit hmeans =>
      rw [enter, hmeans.meaning_eq]
      exact Edit.forall₂_rearrange h _

theorem run (htraces : e.Traces R) {entries : List Entry} {s : Stack}
    (h : List.Forall₂ R entries s.items) {tokens : List String} {d : Draft}
    (hrun : e.run s tokens = .ok d) :
    List.Forall₂ R (tokens.foldl e.enter entries) d.stack.items := by
  rw [Evaluator.run] at hrun
  generalize hfirst : ({ stack := s } : Draft) = first at hrun
  replace h : List.Forall₂ R entries first.stack.items := hfirst ▸ h
  clear hfirst
  induction tokens generalizing entries first with
  | nil =>
      cases hrun
      exact h
  | cons token tokens ih =>
      obtain ⟨next, hstep, hrun⟩ := bind_eq_ok.mp hrun
      exact ih next hrun (htraces.rewrites h (rewrites_of_step hstep))

end Traces

end Evaluator

/-! ## Sessions -/

namespace Session

variable {s : Session} {R : Entry → Item → Prop}

/-- What a line does to the entries of the items on the stack. -/
def entryAct (s : Session) (entries : List Entry) (line : String) : Timeline.Act (List Entry) :=
  match Token.words line with
  | .error _ => .stay
  | .ok tokens =>
    match s.evaluator.travel? tokens with
    | some way => .travel way
    | none =>
      match s.evaluator.run s.stack tokens with
      | .error _ => .stay
      | .ok d =>
        if d.changes.isEmpty then .stay
        else .become (tokens.foldl s.evaluator.enter entries)

/-- The entries of the items of a session, now and in its history, after lines in turn. -/
def entered (s : Session) (entries : Timeline (List Entry)) :
    List String → Timeline (List Entry)
  | [] => entries
  | line :: lines =>
      let next := entries.step s.history.limit (s.entryAct entries.present line)
      (s.submit line).session.entered next lines

/-- Entries and items go the same way. -/
theorem exists_acts_entryAct (htraces : s.evaluator.Traces R) {entries : List Entry}
    (h : List.Forall₂ R entries s.stack.items) (line : String) :
    ∃ act, s.Acts line act ∧ (s.entryAct entries line).Rel (List.Forall₂ R) act := by
  obtain ⟨act, hact⟩ := exists_acts s line
  refine ⟨act, hact, ?_⟩
  unfold entryAct
  cases hact with
  | @travel way hline hop hclaim =>
      have hway : s.evaluator.travel? [way.token] = some way :=
        Evaluator.travel?_eq_some.mpr ⟨_, rfl, Evaluator.means_travel_iff.mpr ⟨rfl, hop, hclaim⟩⟩
      simp only [hline, hway]
      exact .travel way
  | become hline hrun hmoved =>
      simp only [hline, Evaluator.travel?_eq_none_of_run hrun, hrun]
      rw [if_neg (by simpa using hmoved)]
      exact .become (htraces.run h hrun)
  | claimed hline hall =>
      have hrun := Evaluator.run_of_claimed (s := s.stack) hall
      simp only [hline, Evaluator.travel?_eq_none_of_run hrun, hrun]
      exact .stay
  | @failed err hfailed =>
      cases evaluate_eq_error.mp (outcome_eq_error.mp hfailed) with
      | unscannable hscan =>
          have hline : Token.words line = .error err := map_eq_error.mpr hscan
          simp only [hline]
          exact .stay
      | @refused before after token d _ hline halone hrun hrefused =>
          have herror : s.evaluator.run s.stack (before ++ token :: after) = .error err :=
            Evaluator.run_eq_error.mpr ⟨before, token, after, d, rfl, hrun, hrefused⟩
          simp only [hline, halone, herror]
          exact .stay

theorem all₂_submit (htraces : s.evaluator.Traces R) {entries : Timeline (List Entry)}
    (h : entries.All₂ (List.Forall₂ R) s.timeline) (line : String) :
    (entries.step s.history.limit (s.entryAct entries.present line)).All₂ (List.Forall₂ R)
      (s.submit line).session.timeline := by
  obtain ⟨act, hact, hrel⟩ := exists_acts_entryAct htraces h.present line
  rw [timeline_submit hact]
  exact h.step hrel _

theorem all₂_submitAll (htraces : s.evaluator.Traces R) {entries : Timeline (List Entry)}
    (h : entries.All₂ (List.Forall₂ R) s.timeline) (lines : List String) :
    (s.entered entries lines).All₂ (List.Forall₂ R) (s.submitAll lines).1.timeline := by
  induction lines generalizing s entries with
  | nil => exact h
  | cons line lines ih =>
      have hnext : (s.submit line).session.evaluator.Traces R := by rwa [evaluator_submit]
      exact ih hnext (all₂_submit htraces h line)

/-- After any lines the items on the stack are in the relation to what was entered for them. -/
theorem forall₂_entered (catalog : Catalog) (settings : Settings) (claims : String → Bool)
    (htraces : (start catalog settings claims).evaluator.Traces R) (lines : List String) :
    List.Forall₂ R ((start catalog settings claims).entered ⟨[], [], []⟩ lines).present
      ((start catalog settings claims).submitAll lines).1.stack.items := by
  have hstart : (⟨[], [], []⟩ : Timeline (List Entry)).All₂ (List.Forall₂ R)
      (start catalog settings claims).timeline := ⟨.nil, .nil, .nil⟩
  exact (all₂_submitAll htraces hstart lines).present

end Session

end ReversePolish
