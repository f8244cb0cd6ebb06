import ReversePolish.Proofs.Stack.Replay

/-! # Lines under way

Along a line a draft moves away from the stack on which the line began. Its changes tell the whole
way, and as long as there are none it has not moved. -/

namespace ReversePolish

open Outcome

/-- The changes of the draft lead from the given stack to its own. -/
structure Draft.Follows (s : Stack) (d : Draft) : Prop where
  replay : Change.replay? s.items d.changes = some d.stack.items
  unmoved : d.changes = [] → d.stack = s

namespace Draft

theorem follows_start (s : Stack) : Follows s { stack := s } :=
  ⟨by simp [Change.replay?], fun _ => rfl⟩

theorem Follows.change {s next : Stack} {d : Draft} {changes : List (Change Item)}
    (h : d.Follows s) (hadv : d.stack.Advances next changes) :
    (d.change (next, changes)).Follows s := by
  constructor
  · rw [Draft.change, Change.replay?_append, h.replay, Option.bind_some, hadv.replay]
  · intro hnil
    exact absurd (List.append_eq_nil_iff.mp hnil).2 hadv.changed

end Draft

namespace Evaluator

/-- A token that is not handed to the presentation makes the next version of the stack. -/
theorem step_cases {e : Evaluator} {d d' : Draft} {token : String}
    (h : e.step d token = .ok d') :
    (e.meaning token = .ok .claimed ∧ d' = { d with claimed := d.claimed ++ [token] }) ∨
      ∃ next changes, d.stack.Advances next changes ∧ d' = d.change (next, changes) := by
  obtain ⟨meaning, hmeaning, h⟩ := bind_eq_ok.mp h
  cases meaning with
  | literal l =>
      obtain ⟨⟨above, c⟩, hpush, h⟩ := bind_eq_ok.mp h
      exact .inr ⟨above, [c], Stack.advances_push hpush, (Except.ok.inj h).symm⟩
  | operator op =>
      obtain ⟨⟨next, changes⟩, hop, h⟩ := map_eq_ok.mp h
      exact .inr ⟨next, changes, Stack.advances_operate hop, h.symm⟩
  | claimed => exact .inl ⟨hmeaning, (Except.ok.inj h).symm⟩
  | command c =>
      cases c with
      | edit edit =>
          obtain ⟨⟨next, changes⟩, hedit, h⟩ := map_eq_ok.mp h
          exact .inr ⟨next, changes, Stack.advances_runCommand hedit, h.symm⟩
      | travel t => cases h

theorem follows_step {e : Evaluator} {s : Stack} {d d' : Draft} {token : String}
    (hd : d.Follows s) (h : e.step d token = .ok d') : d'.Follows s := by
  rcases step_cases h with ⟨_, rfl⟩ | ⟨next, changes, hadv, rfl⟩
  · exact ⟨hd.replay, hd.unmoved⟩
  · exact hd.change hadv

theorem follows_run {e : Evaluator} {s : Stack} {d : Draft} {tokens : List String}
    (h : e.run s tokens = .ok d) : d.Follows s :=
  foldlM_preserves (P := Draft.Follows s) (fun _ _ _ hd hstep => follows_step hd hstep)
    (Draft.follows_start s) h

end Evaluator

end ReversePolish
