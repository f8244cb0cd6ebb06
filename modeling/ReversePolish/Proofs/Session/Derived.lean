import ReversePolish.Proofs.Session.Timeline
import ReversePolish.Proofs.Stack.Operations

/-! # Where items come from

Every item of a session, past or undone ones included, was read from a literal, or is what an
operator made of other such items. Edits and the history only move items around. -/

namespace ReversePolish

open Outcome

/-! ## What holds at all times -/

/-- Whether past, present and future have the property. -/
structure Timeline.All {α : Type} (P : α → Prop) (t : Timeline α) : Prop where
  past : ∀ a ∈ t.past, P a
  present : P t.present
  future : ∀ a ∈ t.future, P a

namespace Timeline.All

variable {α : Type} {P : α → Prop} {t : Timeline α}

theorem undo (h : t.All P) : t.undo.All P := by
  unfold Timeline.undo
  split
  · exact h
  · next old hold =>
    refine ⟨fun a ha => ?_, ?_, List.forall_mem_cons.mpr ⟨h.present, h.future⟩⟩
    · exact h.past a (List.dropLast_subset _ ha)
    · exact h.past old (List.mem_of_getLast? hold)

theorem redo (h : t.All P) : t.redo.All P := by
  unfold Timeline.redo
  split
  · exact h
  · next next rest hfuture =>
    obtain ⟨hnext, hrest⟩ := List.forall_mem_cons.mp (hfuture ▸ h.future)
    refine ⟨List.forall_mem_append.mpr ⟨h.past, ?_⟩, hnext, hrest⟩
    simpa using h.present

theorem become (h : t.All P) {next : α} (hnext : P next) (limit : ℕ) :
    (t.become limit next).All P := by
  refine ⟨fun a ha => ?_, hnext, List.forall_mem_nil P⟩
  rcases List.mem_append.mp (List.mem_of_mem_drop ha) with ha | ha
  · exact h.past a ha
  · rw [List.mem_singleton.mp ha]
    exact h.present

end Timeline.All

/-! ## Derived items -/

namespace Evaluator

/-- The items that the evaluator can make. -/
inductive Derives (e : Evaluator) : Item → Prop where
  | literal {token : String} {l : Literal} (hread : Literal.read token = .ok (some l)) :
      Derives e (e.literalItem l)
  | result {op : Operator} {operands : List Item} {result : Value}
      (hop : op ∈ e.catalog.operators) (harity : operands.length = op.arity)
      (hoperands : ∀ item ∈ operands, Derives e item)
      (happly : op.apply e.limits (operands.map Item.result) = .ok result) :
      Derives e (Stack.resultItem op operands result)

/-- Whether the evaluator can make every one of the items. -/
def DerivesAll (e : Evaluator) (items : List Item) : Prop := ∀ item ∈ items, e.Derives item

variable {e : Evaluator}

/-- What a token makes of the items on the stack. -/
inductive Rewrites (e : Evaluator) (token : String) : List Item → List Item → Prop where
  | literal {l : Literal} (hmeans : e.Means token (.ok (.literal l))) (items : List Item) :
      Rewrites e token items (items ++ [e.literalItem l])
  | operator {op : Operator} (hmeans : e.Means token (.ok (.operator op))) (below : List Item)
      {operands : List Item} (harity : operands.length = op.arity) {result : Value}
      (happly : op.apply e.limits (operands.map Item.result) = .ok result) :
      Rewrites e token (below ++ operands) (below ++ [Stack.resultItem op operands result])
  | claimed (hmeans : e.Means token (.ok .claimed)) (items : List Item) :
      Rewrites e token items items
  | edit {edit : Edit} (hmeans : e.Means token (.ok (.command (.edit edit)))) (items : List Item) :
      Rewrites e token items (edit.rearrange items)

theorem rewrites_of_step {d d' : Draft} {token : String} (h : e.step d token = .ok d') :
    e.Rewrites token d.stack.items d'.stack.items := by
  obtain ⟨meaning, hmeaning, h⟩ := bind_eq_ok.mp h
  have hmeans := means_iff.mpr hmeaning
  cases meaning with
  | literal l =>
      obtain ⟨⟨above, c⟩, hpush, h⟩ := bind_eq_ok.mp h
      obtain rfl := Except.ok.inj h
      change e.Rewrites token d.stack.items above.items
      rw [Stack.items_of_push hpush]
      exact .literal hmeans _
  | operator op =>
      obtain ⟨⟨next, changes⟩, hnext, rfl⟩ := map_eq_ok.mp h
      obtain ⟨below, operands, result, hitems, harity, happly, hnext⟩ :=
        Stack.items_of_operate hnext
      change e.Rewrites token d.stack.items next.items
      rw [hitems, hnext]
      exact .operator hmeans below harity happly
  | claimed =>
      obtain rfl := Except.ok.inj h
      exact .claimed hmeans _
  | command c =>
      cases c with
      | edit edit =>
          obtain ⟨⟨next, changes⟩, hnext, rfl⟩ := map_eq_ok.mp h
          change e.Rewrites token d.stack.items next.items
          rw [Stack.items_of_edit hnext]
          exact .edit hmeans _
      | travel => cases h

/-- What a step leaves on the stack was there before, or is the item of a literal or of a result. -/
theorem forall_items_step {P : Item → Prop} {d d' : Draft} {token : String}
    (hliteral : ∀ l, Literal.read token = .ok (some l) → P (e.literalItem l))
    (hresult : ∀ op operands result, e.catalog.find? token = some op →
      operands.length = op.arity → (∀ item ∈ operands, P item) →
      op.apply e.limits (operands.map Item.result) = .ok result →
      P (Stack.resultItem op operands result))
    (hd : ∀ item ∈ d.stack.items, P item) (h : e.step d token = .ok d') :
    ∀ item ∈ d'.stack.items, P item := by
  have hrewrites := rewrites_of_step h
  generalize d.stack.items = items at hd hrewrites
  generalize d'.stack.items = items' at hrewrites ⊢
  cases hrewrites with
  | literal hmeans =>
      cases hmeans with
      | literal hread =>
          exact List.forall_mem_append.mpr ⟨hd, List.forall_mem_singleton.mpr (hliteral _ hread)⟩
  | operator hmeans below harity happly =>
      cases hmeans with
      | operator _ hfind =>
          obtain ⟨hbelow, hoperands⟩ := List.forall_mem_append.mp hd
          refine List.forall_mem_append.mpr ⟨hbelow, List.forall_mem_singleton.mpr ?_⟩
          exact hresult _ _ _ hfind harity hoperands happly
  | claimed => exact hd
  | edit => exact fun item hitem => hd item (Edit.rearrange_subset _ _ hitem)

theorem derivesAll_step {d d' : Draft} {token : String} (hd : e.DerivesAll d.stack.items)
    (h : e.step d token = .ok d') : e.DerivesAll d'.stack.items := by
  refine forall_items_step (fun l hread => .literal hread) ?_ hd h
  intro op operands result hfind harity hoperands happly
  exact .result (Catalog.mem_of_find? hfind) harity hoperands happly

theorem derivesAll_run {s : Stack} {tokens : List String} {d : Draft}
    (hs : e.DerivesAll s.items) (h : e.run s tokens = .ok d) : e.DerivesAll d.stack.items :=
  foldlM_preserves (P := fun d => e.DerivesAll d.stack.items)
    (fun _ _ _ hd hstep => derivesAll_step hd hstep) hs h

end Evaluator

/-! ## Sessions -/

namespace Session

variable {s : Session}

/-- What the tokens of a line keep of the items on the stack holds at all times. -/
theorem all_submit_of_words {P : List Item → Prop} (h : s.timeline.All P) (line : String)
    (hrun : ∀ tokens d, Token.words line = .ok tokens → s.evaluator.run s.stack tokens = .ok d →
      P d.stack.items) :
    (s.submit line).session.timeline.All P := by
  obtain ⟨act, hact⟩ := exists_acts s line
  rw [timeline_submit hact]
  cases hact with
  | @travel t hline hop hclaim =>
      cases t with
      | undo => exact h.undo
      | redo => exact h.redo
  | become hline hmade hmoved => exact h.become (hrun _ _ hline hmade) _
  | claimed hline hall => exact h
  | failed hfailed => exact h

/-- What any tokens keep of the items on the stack holds at all times. -/
theorem all_submit {P : List Item → Prop} (h : s.timeline.All P) (line : String)
    (hrun : ∀ tokens d, s.evaluator.run s.stack tokens = .ok d → P d.stack.items) :
    (s.submit line).session.timeline.All P :=
  all_submit_of_words h line fun tokens d _ => hrun tokens d

theorem derives_submit (h : s.timeline.All s.evaluator.DerivesAll) (line : String) :
    (s.submit line).session.timeline.All s.evaluator.DerivesAll :=
  all_submit h line fun _ _ hrun => Evaluator.derivesAll_run h.present hrun

/-- The items of a session, now and in its history, are all derived. -/
theorem derives_submitAll (catalog : Catalog) (settings : Settings) (claims : String → Bool)
    (lines : List String) :
    let first := start catalog settings claims
    (first.submitAll lines).1.evaluator = first.evaluator ∧
      (first.submitAll lines).1.timeline.All first.evaluator.DerivesAll := by
  intro first
  let Derived (s : Session) : Prop :=
    s.evaluator = first.evaluator ∧ s.timeline.All first.evaluator.DerivesAll
  have hstart : Derived first :=
    ⟨rfl, List.forall_mem_nil _, List.forall_mem_nil _, List.forall_mem_nil _⟩
  refine submitAll_preserves (P := Derived) ?_ hstart lines
  rintro s line ⟨hevaluator, h⟩
  rw [← hevaluator] at h
  have hnext := derives_submit h line
  rw [hevaluator] at hnext
  exact ⟨(evaluator_submit s line).trans hevaluator, hnext⟩

end Session

end ReversePolish
