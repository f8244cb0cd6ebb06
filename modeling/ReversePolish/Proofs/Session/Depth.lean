import ReversePolish.Proofs.Catalog.Persistent
import ReversePolish.Proofs.Catalog.Standard
import ReversePolish.Proofs.Literal.Textual
import ReversePolish.Proofs.Session.Derived
import ReversePolish.Proofs.Session.Sequence
import ReversePolish.Proofs.Session.Versions
import ReversePolish.Proofs.Stack.Depth

/-! # Sessions of bounded depth

No stack of a session, past or to come, holds more items than the settings allow, and a line is
refused for want of room only where one of its tokens would exceed them. -/

namespace ReversePolish

open Outcome

/-! ## One token -/

/-- The draft on a stack without a bound. -/
def Draft.unbounded (d : Draft) : Draft := { d with stack := d.stack.unbounded }

/-- Gives the bound to a draft that does not exceed it. -/
def Draft.enforce (limit : ℕ) (d : Draft) : Except Error Draft :=
  if limit < d.stack.size then .error (.stackOverflow limit)
  else .ok { d with stack := { d.stack with maxDepth := some limit } }

theorem Draft.map_change_enforce (limit : ℕ) (d : Draft)
    (x : Except Error (Stack × List (Change Item))) :
    (x >>= Stack.enforce limit).map d.change = x.map d.unbounded.change >>= enforce limit := by
  cases x with
  | error err => rfl
  | ok moved =>
      change (Stack.enforce limit moved).map d.change = enforce limit (d.unbounded.change moved)
      unfold Stack.enforce enforce
      change _ = if limit < moved.1.size then _ else _
      split
      · rfl
      · rfl

theorem Draft.enforce_eq_ok {limit : ℕ} {d d' : Draft} (h : d.enforce limit = .ok d') :
    d'.stack.Bounded limit := by
  unfold enforce at h
  split at h
  · cases h
  · next hfits =>
    obtain rfl := Except.ok.inj h
    exact ⟨rfl, Nat.le_of_not_lt hfits⟩

theorem Draft.enforce_eq_overflow {limit n : ℕ} {d : Draft} :
    d.enforce limit = .error (.stackOverflow n) ↔ n = limit ∧ limit < d.stack.size := by
  unfold enforce
  split
  · next hfull => simp [hfull, eq_comm]
  · next hfits => simp [hfits]

namespace Evaluator

variable {e : Evaluator} {limit : ℕ}

theorem perform_literal (d : Draft) (token : String) (l : Literal) :
    e.perform d token (.literal l) =
      ((d.stack.push (e.literalItem l)).map fun (above, change) => (above, [change])).map
        d.change := by
  simp only [perform]
  cases d.stack.push (e.literalItem l) with
  | error err => rfl
  | ok pushed => rfl

theorem perform_eq_enforce {d : Draft} (h : d.stack.Bounded limit) (token : String)
    (meaning : Meaning) :
    e.perform d token meaning = e.perform d.unbounded token meaning >>= Draft.enforce limit := by
  cases meaning with
  | literal l =>
      rw [perform_literal, perform_literal, Stack.push_eq_enforce h.maxDepth,
        Stack.map_bind_enforce fun change => [change]]
      exact Draft.map_change_enforce limit d _
  | operator op =>
      simp only [perform, Stack.operate_eq_enforce h.maxDepth e.limits op]
      exact Draft.map_change_enforce limit d _
  | claimed =>
      let claimed : Draft := { d.unbounded with claimed := d.claimed ++ [token] }
      change _ = claimed.enforce limit
      have hfits : ¬ limit < claimed.stack.size := Nat.not_lt_of_le h.size_le
      have hbound : { d.stack with maxDepth := some limit } = d.stack := by rw [← h.maxDepth]
      rw [Draft.enforce, if_neg hfits]
      exact congrArg (fun stack => Except.ok { d with stack, claimed := d.claimed ++ [token] })
        hbound.symm
  | command c =>
      cases c with
      | edit edit =>
          change (d.stack.runCommand (.edit edit)).map d.change = _
          rw [Stack.edit_eq_enforce h edit]
          exact Draft.map_change_enforce limit d _
      | travel t => rfl

/-- A token does what it would do without the bound, and then the bound is enforced. -/
theorem step_eq_enforce {d : Draft} (h : d.stack.Bounded limit) (token : String) :
    e.step d token = e.step d.unbounded token >>= Draft.enforce limit := by
  unfold step
  cases e.meaning token with
  | error err => rfl
  | ok meaning => exact perform_eq_enforce h token meaning

theorem bounded_step {d d' : Draft} (h : d.stack.Bounded limit) {token : String}
    (hstep : e.step d token = .ok d') : d'.stack.Bounded limit := by
  rw [step_eq_enforce h] at hstep
  obtain ⟨_, _, henforced⟩ := bind_eq_ok.mp hstep
  exact Draft.enforce_eq_ok henforced

theorem bounded_run {s : Stack} (h : s.Bounded limit) {tokens : List String} {d : Draft}
    (hrun : e.run s tokens = .ok d) : d.stack.Bounded limit :=
  foldlM_preserves (P := fun d => d.stack.Bounded limit)
    (fun _ _ _ hd hstep => bounded_step hd hstep) h hrun

/-! ## Where a stack is full -/

theorem meaning_raises (e : Evaluator) (token : String) :
    Raises Error.NoOverflow (e.meaning token) := by
  obtain ⟨r, hmeans⟩ := exists_means e token
  rw [hmeans.meaning_eq]
  cases hmeans with
  | malformed hread =>
      exact Error.IsTextual.noOverflow ((Literal.read_raises token).of_eq_error hread)
  | unknownToken | unknownCommand => exact nofun
  | literal | operator | claimed | command => trivial

/-- Without a bound there is always room. -/
theorem step_unbounded_raises (hcatalog : e.catalog.Assembled) (d : Draft) (token : String) :
    Raises Error.NoOverflow (e.step d.unbounded token) := by
  have hnone : d.unbounded.stack.maxDepth = none := rfl
  unfold step
  cases hmeaning : e.meaning token with
  | error err => exact (meaning_raises e token).of_eq_error hmeaning
  | ok meaning =>
      change Raises Error.NoOverflow (e.perform d.unbounded token meaning)
      cases means_iff.mpr hmeaning with
      | literal =>
          rw [perform_literal, Stack.push_of_unbounded hnone]
          trivial
      | operator _ hfind =>
          have hop := Catalog.mem_of_find? hfind
          refine (Stack.operate_unbounded_raises hnone fun args => ?_).map _
          exact (hcatalog.apply_raises hop e.limits args).mono fun _ h => h.noOverflow
      | claimed => trivial
      | @command c =>
          cases c with
          | edit edit => exact (Stack.runCommand_unbounded_raises hnone rfl).map _
          | travel => exact nofun

theorem step_eq_overflow (hcatalog : e.catalog.Assembled) {d : Draft}
    (h : d.stack.Bounded limit) {token : String} {n : ℕ} :
    e.step d token = .error (.stackOverflow n) ↔
      n = limit ∧ ∃ roomy, e.step d.unbounded token = .ok roomy ∧ limit < roomy.stack.size := by
  rw [step_eq_enforce h, bind_eq_error]
  have hroomy : e.step d.unbounded token ≠ .error (.stackOverflow n) := fun hfull =>
    (step_unbounded_raises hcatalog d token).of_eq_error hfull rfl
  simp only [hroomy, false_or, Draft.enforce_eq_overflow]
  constructor
  · rintro ⟨roomy, hstep, hn, hfull⟩
    exact ⟨hn, roomy, hstep, hfull⟩
  · rintro ⟨hn, roomy, hstep, hfull⟩
    exact ⟨roomy, hstep, hn, hfull⟩

end Evaluator

/-! ## Lines -/

namespace Session

/-- The stacks of the session hold no more than they may, now and in its history. -/
structure Bounded (limit : ℕ) (s : Session) : Prop where
  maxDepth : s.stack.maxDepth = some limit
  timeline : s.timeline.All fun items => items.length ≤ limit

variable {limit : ℕ} {s : Session}

theorem Bounded.stack (h : s.Bounded limit) : s.stack.Bounded limit :=
  ⟨h.maxDepth, h.timeline.present⟩

theorem maxDepth_travel (s : Session) (t : Travel) :
    (s.travel t).1.stack.maxDepth = s.stack.maxDepth := by
  unfold travel
  split
  · rfl
  · rfl

theorem Bounded.submit (h : s.Bounded limit) (line : String) :
    (s.submit line).session.Bounded limit := by
  refine ⟨?_, ?_⟩
  · have hyields := submit_yields s line
    generalize s.submit line = sub at hyields
    cases hyields with
    | failed _ => exact h.maxDepth
    | travelled _ _ => exact (maxDepth_travel s _).trans h.maxDepth
    | evaluated _ _ hrun =>
        rw [stack_commit (Evaluator.follows_run hrun)]
        exact (Evaluator.bounded_run h.stack hrun).maxDepth
  · exact all_submit h.timeline line fun _ _ hrun =>
      (Evaluator.bounded_run h.stack hrun).size_le

theorem bounded_start (catalog : Catalog) {settings : Settings}
    (h : settings.maxDepth = some limit) (claims : String → Bool) :
    (start catalog settings claims).Bounded limit :=
  ⟨h, List.forall_mem_nil _, Nat.zero_le limit, List.forall_mem_nil _⟩

theorem Bounded.submitAll (h : s.Bounded limit) (lines : List String) :
    (s.submitAll lines).1.Bounded limit :=
  submitAll_preserves (P := Bounded limit) (fun _ line h => h.submit line) h lines

theorem Bounded.history (h : s.Bounded limit) :
    ∀ old ∈ s.history.past ++ s.history.future, old.items.length ≤ limit := by
  refine List.forall_mem_append.mpr ⟨fun old hold => ?_, fun old hold => ?_⟩
  · exact h.timeline.past old.items (List.mem_map_of_mem hold)
  · exact h.timeline.future old.items (List.mem_map_of_mem hold)

/-- A line finds the stack full exactly where its tokens lead up to one that would exceed the
bound. -/
theorem outcome_eq_overflow (hcatalog : s.evaluator.catalog.Assembled) (h : s.Bounded limit)
    {line : String} {n : ℕ} :
    (s.submit line).outcome = .error (.stackOverflow n) ↔
      n = limit ∧ ∃ before token after d roomy,
        Token.words line = .ok (before ++ token :: after) ∧
        s.evaluator.run s.stack before = .ok d ∧
        s.evaluator.step d.unbounded token = .ok roomy ∧ limit < roomy.stack.size := by
  rw [outcome_eq_error, evaluate_eq_error]
  constructor
  · intro hfails
    cases hfails with
    | unscannable hscan => exact absurd rfl ((Token.scan_raises 0 _).of_eq_error hscan).noOverflow
    | @refused before after token d _ hline halone hrun hrefuses =>
        have hstep := Evaluator.step_eq_error.mpr hrefuses
        have hd := Evaluator.bounded_run h.stack hrun
        obtain ⟨hn, roomy, hroomy, hfull⟩ := (Evaluator.step_eq_overflow hcatalog hd).mp hstep
        exact ⟨hn, before, token, after, d, roomy, hline, hrun, hroomy, hfull⟩
  · rintro ⟨rfl, before, token, after, d, roomy, hline, hrun, hroomy, hfull⟩
    have hd := Evaluator.bounded_run h.stack hrun
    have hstep := (Evaluator.step_eq_overflow hcatalog hd).mpr ⟨rfl, roomy, hroomy, hfull⟩
    refine .refused hline ?_ hrun (Evaluator.step_eq_error.mp hstep)
    -- A step through the history is none for a draft, whatever its bound.
    by_contra hne
    obtain ⟨t, ht⟩ := Option.ne_none_iff_exists'.mp hne
    obtain ⟨only, htokens, hmeans⟩ := Evaluator.travel?_eq_some.mp ht
    have htoken : token ∈ [only] := htokens ▸ by simp
    rw [← List.mem_singleton.mp htoken] at hmeans
    have hrefused := Evaluator.step_eq_error.mpr (.notAlone (d := d.unbounded) hmeans rfl)
    rw [hroomy] at hrefused
    cases hrefused

/-- Where the settings bound the depth, the stack, what readers see of it, every version that can be
restored, and the stack after each token of a line that is under way hold no more items than that.
With operators of the standard libraries, a line finds the stack full exactly at a token that would
make it hold more. -/
theorem depth_bounded (catalog : Catalog) {settings : Settings} {most : ℕ}
    (hmost : settings.maxDepth = some most) (claims : String → Bool) (lines : List String) :
    let s := ((start catalog settings claims).submitAll lines).1
    s.stack.size ≤ most ∧ s.published.items.length ≤ most ∧
      (∀ old ∈ s.history.past ++ s.history.future, old.items.length ≤ most) ∧
      (∀ tokens d, s.evaluator.run s.stack tokens = .ok d → d.stack.size ≤ most) ∧
      (catalog.Assembled → ∀ line n, (s.submit line).outcome = .error (.stackOverflow n) ↔
        n = most ∧ ∃ before token after d roomy,
          Token.words line = .ok (before ++ token :: after) ∧
          s.evaluator.run s.stack before = .ok d ∧
          s.evaluator.step d.unbounded token = .ok roomy ∧ most < roomy.stack.size) := by
  intro s
  have hs : s.Bounded most := (bounded_start catalog hmost claims).submitAll lines
  have hpublished : s.published = s.stack.toSnapshot :=
    ((dated_start catalog settings claims).submitAll lines).published
  have hevaluator : s.evaluator = (start catalog settings claims).evaluator :=
    evaluator_submitAll _ lines
  refine ⟨hs.stack.size_le, ?_, hs.history, ?_, ?_⟩
  · rw [hpublished]
    exact hs.stack.size_le
  · exact fun tokens d hrun => (Evaluator.bounded_run hs.stack hrun).size_le
  · intro hcatalog line n
    refine outcome_eq_overflow ?_ hs
    rw [hevaluator]
    exact hcatalog

/-- The second of two copies finds the stack full, and none that can be restored was fuller. -/
theorem depth_bounded_of_two :
    let catalog := Catalog.standard.toOption.getD .empty
    let settings : Settings := { maxDepth := some 2 }
    let s := ((start catalog settings fun _ => false).submitAll ["1 2", "+ 3", "\\undo"]).1
    settings.maxDepth = some 2 ∧ s.stack.size ≤ 2 ∧
      (∀ old ∈ s.history.past ++ s.history.future, old.items.length ≤ 2) ∧
      ∃ before token after d roomy,
        Token.words "\\pop \\dup \\dup" = .ok (before ++ token :: after) ∧
        s.evaluator.run s.stack before = .ok d ∧
        s.evaluator.step d.unbounded token = .ok roomy ∧ 2 < roomy.stack.size := by
  intro catalog settings s
  have hcatalog : catalog.Assembled :=
    Catalog.assembled_of_ofLibraries (fun _ h => h) Catalog.standard_eq
  have hfull : (s.submit "\\pop \\dup \\dup").outcome = .error (.stackOverflow 2) := by
    decide +kernel
  have hmost : settings.maxDepth = some 2 := rfl
  obtain ⟨hsize, -, hhistory, -, hoverflow⟩ :=
    depth_bounded catalog hmost (fun _ => false) ["1 2", "+ 3", "\\undo"]
  exact ⟨hmost, hsize, hhistory, ((hoverflow hcatalog _ 2).mp hfull).2⟩

end Session

end ReversePolish
