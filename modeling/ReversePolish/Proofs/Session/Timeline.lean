import ReversePolish.Catalog.Standard
import ReversePolish.Proofs.History.Timeline
import ReversePolish.Proofs.Session.Failure

/-! # Sessions along a timeline

A session moves along a timeline of item lists. A line makes new items the present, is a step to
the past or the future, or has no effect, and which of these it is shows on its tokens. -/

namespace ReversePolish

open Outcome

/-- The token of a step through the history. -/
def Travel.token (t : Travel) : String := Command.token (Command.travel t).name

namespace Evaluator

theorem means_travel_iff {e : Evaluator} {token : String} {t : Travel} :
    e.Means token (.ok (.command (.travel t))) ↔
      token = t.token ∧ e.catalog.find? token = none ∧ e.claims token = false := by
  constructor
  · rintro ⟨⟩
    next hread hop hform hclaim hfind =>
      have hname := List.find?_some hfind
      simp only [Command.names, Command.aliases, List.any_cons, List.any_nil, Bool.or_false,
        decide_eq_true_eq] at hname
      exact ⟨hname.symm, hop, hclaim⟩
  · rintro ⟨rfl, hop, hclaim⟩
    cases t with
    | undo => exact .command rfl hop (by decide +kernel) hclaim (by decide +kernel)
    | redo => exact .command rfl hop (by decide +kernel) hclaim (by decide +kernel)

theorem travel?_eq_some {e : Evaluator} {tokens : List String} {t : Travel} :
    e.travel? tokens = some t ↔
      ∃ token, tokens = [token] ∧ e.Means token (.ok (.command (.travel t))) := by
  simp only [travel?]
  split
  · next token =>
      simp only [List.cons.injEq, and_true, exists_eq_left', means_iff]
      split
      · next h => simp [h]
      · next h => simpa using fun hm => h t hm
  · next h =>
      constructor
      · intro h
        cases h
      · rintro ⟨token, rfl, _⟩
        exact absurd rfl (h token)

theorem travel?_eq_none {e : Evaluator} {tokens : List String}
    (h : ∀ t : Travel, tokens = [t.token] → ¬ e.Means t.token (.ok (.command (.travel t)))) :
    e.travel? tokens = none := by
  cases ht : e.travel? tokens with
  | none => rfl
  | some t =>
      obtain ⟨token, htokens, hmeans⟩ := travel?_eq_some.mp ht
      obtain ⟨rfl, -, -⟩ := means_travel_iff.mp hmeans
      exact absurd hmeans (h t htokens)

theorem run_travel {e : Evaluator} {t : Travel}
    (h : e.Means t.token (.ok (.command (.travel t)))) (s : Stack) : e.run s [t.token] = .error (.parse t.token .notAlone) :=
  run_eq_error.mpr ⟨[], t.token, [], { stack := s }, rfl, rfl, .notAlone h rfl⟩

/-- A line in which every token succeeds has no step through the history. -/
theorem travel?_eq_none_of_run {e : Evaluator} {s : Stack} {tokens : List String} {d : Draft}
    (h : e.run s tokens = .ok d) : e.travel? tokens = none := by
  refine travel?_eq_none fun t htokens hmeans => ?_
  rw [htokens, run_travel hmeans] at h
  cases h

/-- Only tokens for the presentation leave a draft as it is. -/
theorem claimed_of_run_unmoved {e : Evaluator} {s : Stack} {tokens : List String} {d : Draft}
    (h : e.run s tokens = .ok d) (hd : d.changes = []) :
    ∀ token ∈ tokens, e.Means token (.ok .claimed) := by
  unfold run at h
  generalize ({ stack := s } : Draft) = first at h
  suffices hgoal : first.changes = [] ∧ ∀ token ∈ tokens, e.Means token (.ok .claimed) from hgoal.2
  induction tokens generalizing first with
  | nil =>
      cases h
      exact ⟨hd, by simp⟩
  | cons token tokens ih =>
      obtain ⟨second, hstep, h⟩ := bind_eq_ok.mp h
      obtain ⟨hsecond, hall⟩ := ih second h
      rcases step_cases hstep with ⟨hclaimed, rfl⟩ | ⟨next, changes, hadv, rfl⟩
      · exact ⟨hsecond, List.forall_mem_cons.mpr ⟨means_iff.mpr hclaimed, hall⟩⟩
      · exact absurd (List.append_eq_nil_iff.mp hsecond).2 hadv.changed

theorem run_of_claimed {e : Evaluator} {s : Stack} {tokens : List String}
    (hall : ∀ token ∈ tokens, e.Means token (.ok .claimed)) :
    e.run s tokens = .ok { stack := s, claimed := tokens } := by
  simp only [run]
  suffices hgoal : ∀ before, tokens.foldlM e.step { stack := s, claimed := before } =
      .ok { stack := s, claimed := before ++ tokens } from hgoal []
  intro before
  induction tokens generalizing before with
  | nil => simp [pure, Except.pure]
  | cons token tokens ih =>
      obtain ⟨hclaimed, hall⟩ := List.forall_mem_cons.mp hall
      have hstep : e.step { stack := s, claimed := before } token =
          .ok { stack := s, claimed := before ++ [token] } :=
        bind_eq_ok.mpr ⟨_, hclaimed.meaning_eq, rfl⟩
      rw [List.foldlM_cons, bind_eq_ok]
      exact ⟨_, hstep, by simpa using ih hall (before ++ [token])⟩

end Evaluator

namespace Session

/-- The items of the session, now and in its history. -/
def timeline (s : Session) : Timeline (List Item) :=
  ⟨s.history.past.map Snapshot.items, s.stack.items, s.history.future.map Snapshot.items⟩

/-- What a line does to the timeline, by its tokens: a step through the history stands alone, is no
operator and is not taken over by the presentation; new items come of tokens that all succeed and
change the stack; and there is no effect where a token fails or all tokens, if any, are taken over
by the presentation. -/
inductive Acts (s : Session) (line : String) : Timeline.Act (List Item) → Prop where
  | travel {t : Travel} (hline : Token.words line = .ok [t.token])
      (hop : s.evaluator.catalog.find? t.token = none)
      (hclaim : s.evaluator.claims t.token = false) : Acts s line (.travel t)
  | become {tokens : List String} {d : Draft} (hline : Token.words line = .ok tokens)
      (hrun : s.evaluator.run s.stack tokens = .ok d) (hmoved : d.changes ≠ []) :
      Acts s line (.become d.stack.items)
  | claimed {tokens : List String} (hline : Token.words line = .ok tokens)
      (hall : ∀ token ∈ tokens, s.evaluator.Means token (.ok .claimed)) : Acts s line .stay
  | failed {err : Error} (h : (s.submit line).outcome = .error err) : Acts s line .stay

theorem exists_acts (s : Session) (line : String) : ∃ act, s.Acts line act := by
  have h := submit_yields s line
  generalize hsub : s.submit line = sub at h
  cases h with
  | failed h => exact ⟨_, .failed (outcome_eq_error.mpr h)⟩
  | travelled hline ht =>
      obtain ⟨token, rfl, hmeans⟩ := Evaluator.travel?_eq_some.mp ht
      obtain ⟨rfl, hop, hclaim⟩ := Evaluator.means_travel_iff.mp hmeans
      exact ⟨_, .travel hline hop hclaim⟩
  | @evaluated tokens d hline ht hrun =>
      by_cases hmoved : d.changes = []
      · exact ⟨_, .claimed hline (Evaluator.claimed_of_run_unmoved hrun hmoved)⟩
      · exact ⟨_, .become hline hrun hmoved⟩

/-! ## One line -/

theorem submit_of_evaluate_eq_ok {s after : Session} {line : String} {events : List Event}
    (h : s.evaluate line = .ok (after, events)) : s.submit line = ⟨after, events, .ok ()⟩ := by
  rw [submit_eq, h]

theorem submit_of_travel {s : Session} {line : String} {t : Travel}
    (hline : Token.words line = .ok [t.token]) (hop : s.evaluator.catalog.find? t.token = none)
    (hclaim : s.evaluator.claims t.token = false) :
    s.submit line = ⟨(s.travel t).1, (s.travel t).2, .ok ()⟩ := by
  apply submit_of_evaluate_eq_ok
  have ht : s.evaluator.travel? [t.token] = some t :=
    Evaluator.travel?_eq_some.mpr ⟨_, rfl, Evaluator.means_travel_iff.mpr ⟨rfl, hop, hclaim⟩⟩
  rw [evaluate_eq, hline]
  simp [bind, Except.bind, ht]

theorem submit_of_run {s : Session} {line : String} {tokens : List String} {d : Draft}
    (hline : Token.words line = .ok tokens) (hrun : s.evaluator.run s.stack tokens = .ok d) :
    s.submit line = ⟨(s.commit d).1, (s.commit d).2, .ok ()⟩ := by
  apply submit_of_evaluate_eq_ok
  rw [evaluate_eq, hline]
  simp [bind, Except.bind, Evaluator.travel?_eq_none_of_run hrun, hrun, Except.map]

theorem timeline_travel (s : Session) (t : Travel) :
    (s.travel t).1.timeline = s.timeline.travel t := by
  cases t with
  | undo =>
      simp only [travel, destination?, History.undo?]
      cases h : s.history.past.getLast? with
      | none => simp [timeline, Timeline.travel, Timeline.undo, h]
      | some old =>
          simp [timeline, Timeline.travel, Timeline.undo, h, Stack.restore, List.map_dropLast]
  | redo =>
      simp only [travel, destination?, History.redo?]
      cases h : s.history.future with
      | nil => simp [timeline, Timeline.travel, Timeline.redo, h]
      | cons next future => simp [timeline, Timeline.travel, Timeline.redo, h, Stack.restore]

theorem commit_of_unmoved {s : Session} {d : Draft} (h : d.changes = []) :
    s.commit d = (s, d.claimed.map .command) := by
  simp [commit, h]

theorem timeline_commit {s : Session} {d : Draft} (h : d.changes ≠ []) :
    (s.commit d).1.timeline = s.timeline.become s.history.limit d.stack.items := by
  simp [commit, h, timeline, Timeline.become, History.record, List.rtake, List.map_drop]

theorem timeline_submit {s : Session} {line : String} {act : Timeline.Act (List Item)}
    (h : s.Acts line act) :
    (s.submit line).session.timeline = s.timeline.step s.history.limit act := by
  cases h with
  | travel hline hop hclaim =>
      rw [submit_of_travel hline hop hclaim]
      exact timeline_travel s _
  | become hline hrun hmoved =>
      rw [submit_of_run hline hrun]
      exact timeline_commit hmoved
  | claimed hline hall =>
      rw [submit_of_run hline (Evaluator.run_of_claimed hall), commit_of_unmoved rfl]
      rfl
  | failed h =>
      rw [submit_of_evaluate_eq_error (outcome_eq_error.mp h)]
      rfl

theorem submit_of_stay {s : Session} {line : String} (h : s.Acts line .stay) :
    (s.submit line).session = s := by
  cases h with
  | claimed hline hall =>
      rw [submit_of_run hline (Evaluator.run_of_claimed hall), commit_of_unmoved rfl]
  | failed h => rw [submit_of_evaluate_eq_error (outcome_eq_error.mp h)]

theorem travel_of_destination?_eq_none {s : Session} {t : Travel} (h : s.destination? t = none) :
    s.travel t = (s, [.info (nothingTo t)]) := by
  rw [travel, h]

theorem limit_travel (s : Session) (t : Travel) :
    (s.travel t).1.history.limit = s.history.limit := by
  cases t with
  | undo =>
      simp only [travel, destination?, History.undo?]
      cases s.history.past.getLast? <;> rfl
  | redo =>
      simp only [travel, destination?, History.redo?]
      cases s.history.future.head? <;> rfl

theorem limit_submit (s : Session) (line : String) :
    (s.submit line).session.history.limit = s.history.limit := by
  have h := submit_yields s line
  generalize s.submit line = sub at h
  cases h with
  | failed _ => rfl
  | travelled _ _ => exact limit_travel s _
  | evaluated _ _ _ =>
      simp only [commit]
      split <;> rfl

/-! ## Any number of lines -/

/-- What lines do to the timeline in turn. -/
inductive ActsAll : Session → List String → List (Timeline.Act (List Item)) → Prop where
  | nil (s) : ActsAll s [] []
  | cons {s line lines act acts} (h : s.Acts line act)
      (hrest : ActsAll (s.submit line).session lines acts) :
      ActsAll s (line :: lines) (act :: acts)

theorem exists_actsAll (s : Session) (lines : List String) : ∃ acts, s.ActsAll lines acts := by
  induction lines generalizing s with
  | nil => exact ⟨[], .nil s⟩
  | cons line lines ih =>
      obtain ⟨act, h⟩ := exists_acts s line
      obtain ⟨acts, hrest⟩ := ih (s.submit line).session
      exact ⟨act :: acts, .cons h hrest⟩

theorem ActsAll.timeline_eq {s : Session} {lines : List String}
    {acts : List (Timeline.Act (List Item))} (h : s.ActsAll lines acts) :
    (s.submitAll lines).1.timeline = acts.foldl (Timeline.step s.history.limit) s.timeline := by
  induction h with
  | nil s => rfl
  | cons h hrest ih => rw [submitAll, ih, limit_submit, timeline_submit h, List.foldl_cons]

/-! ## Undo and redo by number -/

/-- The tokens of steps through the history reach the history. -/
def Travels (s : Session) : Prop :=
  ∀ t : Travel, s.evaluator.catalog.find? t.token = none ∧ s.evaluator.claims t.token = false

theorem words_token (t : Travel) : Token.words t.token = .ok [t.token] := by
  cases t <;> decide +kernel

theorem timeline_submitAll_token {s : Session} (h : s.Travels) (t : Travel) (k : ℕ) :
    (s.submitAll (List.replicate k t.token)).1.timeline = (·.travel t)^[k] s.timeline := by
  induction k generalizing s with
  | zero => rfl
  | succ k ih =>
      have hnext : (s.submit t.token).session.Travels := by
        simpa only [Travels, evaluator_submit] using h
      rw [List.replicate_succ, submitAll, ih hnext, Function.iterate_succ_apply,
        timeline_submit (.travel (words_token t) (h t).1 (h t).2)]
      rfl

theorem travels_submitAll {s : Session} (h : s.Travels) (lines : List String) :
    (s.submitAll lines).1.Travels :=
  submitAll_preserves (P := Travels)
    (fun s line hs => by simpa only [Travels, evaluator_submit] using hs) h lines

theorem timeline_undo_redo {s : Session} (h : s.Travels) (k : ℕ) :
    (s.submitAll (List.replicate k Travel.undo.token ++
      List.replicate k Travel.redo.token)).1.timeline =
      Timeline.redo^[k] (Timeline.undo^[k] s.timeline) := by
  rw [submitAll_append, timeline_submitAll_token (travels_submitAll h _), timeline_submitAll_token h]
  rfl

/-- What the history of a session amounts to: a timeline whose past and future together never
exceed the limit, and which lines move along by what their tokens are. -/
structure FollowsTimeline (first : Session) (lines : List String) (s : Session)
    (limit : ℕ) : Prop where
  total : ∃ acts, first.ActsAll lines acts
  refines : ∀ acts, first.ActsAll lines acts →
    s.timeline = acts.foldl (Timeline.step limit) ⟨[], [], []⟩
  stay : ∀ line, s.Acts line .stay → (s.submit line).session = s
  no_past : ∀ line, s.Acts line (.travel .undo) → s.timeline.past = [] →
    s.submit line = ⟨s, [.info "nothing to undo"], .ok ()⟩
  no_future : ∀ line, s.Acts line (.travel .redo) → s.timeline.future = [] →
    s.submit line = ⟨s, [.info "nothing to redo"], .ok ()⟩
  bounded : s.timeline.past.length + s.timeline.future.length ≤ limit
  canUndo_iff : s.history.canUndo ↔ s.timeline.past ≠ []
  canRedo_iff : s.history.canRedo ↔ s.timeline.future ≠ []
  back_and_forth : s.Travels → ∀ k,
    (s.submitAll (List.replicate k "\\undo" ++ List.replicate k "\\redo")).1.timeline =
      s.timeline ↔ k ≤ s.timeline.past.length ∨ s.timeline.future = []

/-- After any lines the session is where its timeline is. Steps back and as many forth restore the
items together with past and future, unless there is a future and some of the steps back found
nothing to undo. -/
theorem follows_timeline (catalog : Catalog) (settings : Settings) (claims : String → Bool)
    (lines : List String) :
    FollowsTimeline (start catalog settings claims) lines
      ((start catalog settings claims).submitAll lines).1 settings.historyLimit := by
  have hrefines : ∀ acts, (start catalog settings claims).ActsAll lines acts →
      ((start catalog settings claims).submitAll lines).1.timeline =
        acts.foldl (Timeline.step settings.historyLimit) ⟨[], [], []⟩ :=
    fun acts h => h.timeline_eq
  obtain ⟨acts, hacts⟩ := exists_actsAll (start catalog settings claims) lines
  generalize ((start catalog settings claims).submitAll lines).1 = s at hrefines ⊢
  constructor
  case total => exact ⟨acts, hacts⟩
  case refines => exact hrefines
  case stay => exact fun line h => submit_of_stay h
  case no_past =>
    intro line h hpast
    have hnone : s.destination? .undo = none := by
      simpa [destination?, History.undo?, timeline] using hpast
    cases h with
    | travel hline hop hclaim =>
        rw [submit_of_travel hline hop hclaim, travel_of_destination?_eq_none hnone]
        rfl
  case no_future =>
    intro line h hfuture
    have hnone : s.destination? .redo = none := by
      simpa [destination?, History.redo?, timeline] using hfuture
    cases h with
    | travel hline hop hclaim =>
        rw [submit_of_travel hline hop hclaim, travel_of_destination?_eq_none hnone]
        rfl
  case bounded =>
    have hempty : (⟨[], [], []⟩ : Timeline (List Item)).extent ≤ settings.historyLimit :=
      Nat.zero_le _
    have hextent := Timeline.extent_foldl_step_le hempty acts
    rwa [← hrefines acts hacts] at hextent
  case canUndo_iff => simp [History.canUndo, timeline]
  case canRedo_iff => simp [History.canRedo, timeline]
  case back_and_forth =>
    intro h k
    exact (timeline_undo_redo h k).congr_left.trans Timeline.iterate_redo_undo_iff

/-- Of two steps back from one undone change only the first finds a past, and the second step
forth then goes on to what was undone before. -/
theorem undo_beyond_past_not_taken_back :
    let s := ((start (Catalog.standard.toOption.getD .empty) {} fun _ => false).submitAll
      ["1", "2", "\\undo"]).1
    (s.submitAll (List.replicate 2 "\\undo" ++ List.replicate 2 "\\redo")).1.timeline ≠
      s.timeline := by
  intro s h
  have hlength := congrArg (·.present.length) h
  revert hlength
  decide +kernel

example : (start (Catalog.standard.toOption.getD .empty) {} fun _ => false).Travels := by
  intro t
  cases t
  · exact ⟨rfl, rfl⟩
  · exact ⟨rfl, rfl⟩

end Session

end ReversePolish
