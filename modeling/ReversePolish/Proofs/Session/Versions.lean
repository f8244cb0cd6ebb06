import Mathlib.Data.List.Infix
import Mathlib.Data.List.Perm.Subperm
import ReversePolish.Proofs.Session.Submission

/-! # Versions of the stack

A line that tells of no change leaves the session as it is, and any other makes a later version of
the stack. Steps through the history take old items back, but never an old version. -/

namespace ReversePolish

open Outcome

/-! ## The versions in the history -/

namespace History

variable {h later : History} {current old : Snapshot}

/-- All versions that can be restored. -/
def entries (h : History) : List Snapshot := h.past ++ h.future

theorem entries_record_subperm (h : History) (current : Snapshot) :
    (h.record current).entries.Subperm (current :: h.entries) := by
  have hkept : (h.record current).entries.Sublist (h.past ++ [current]) := by
    simpa [entries, record] using List.drop_sublist _ (h.past ++ [current])
  have hmore : (h.past ++ [current]).Sublist (h.past ++ current :: h.future) := by simp
  exact (hkept.trans hmore).subperm.trans List.perm_middle.subperm

theorem entries_undo?_subperm (hundo : h.undo? current = some (old, later)) :
    later.entries.Subperm (current :: h.entries) := by
  obtain ⟨old, hold, hmoved⟩ := Option.map_eq_some_iff.mp hundo
  obtain ⟨rfl, rfl⟩ := Prod.mk.inj hmoved
  have hleft : (h.past.dropLast ++ h.future).Sublist (h.past ++ h.future) :=
    (List.dropLast_sublist h.past).append_right h.future
  exact List.perm_middle.subperm.trans (hleft.cons_cons current).subperm

theorem entries_redo?_subperm (hredo : h.redo? current = some (old, later)) :
    later.entries.Subperm (current :: h.entries) := by
  obtain ⟨next, hnext, hmoved⟩ := Option.map_eq_some_iff.mp hredo
  obtain ⟨rfl, rfl⟩ := Prod.mk.inj hmoved
  have hleft : (h.past ++ current :: h.future.tail).Sublist (h.past ++ current :: h.future) :=
    ((List.tail_sublist h.future).cons_cons current).append_left h.past
  simpa [entries] using hleft.subperm.trans List.perm_middle.subperm

end History

/-! ## One line -/

/-- Whatever changes a draft makes the next version. -/
theorem Evaluator.version_lt_of_run {e : Evaluator} {s : Stack} {tokens : List String} {d : Draft}
    (h : e.run s tokens = .ok d) (hmoved : d.changes ≠ []) : s.version < d.stack.version := by
  let Counts (d : Draft) : Prop :=
    s.version ≤ d.stack.version ∧ (d.changes ≠ [] → s.version < d.stack.version)
  have hstart : Counts { stack := s } := ⟨le_rfl, fun hne => absurd rfl hne⟩
  have hcounts : Counts d := by
    refine foldlM_preserves (P := Counts) (fun d token d' hd hstep => ?_) hstart h
    rcases step_cases hstep with ⟨_, rfl⟩ | ⟨next, changes, hadv, rfl⟩
    · exact hd
    · have hlater : s.version < next.version := by
        rw [hadv.version]
        exact Nat.lt_succ_of_le hd.1
      exact ⟨hlater.le, fun _ => hlater⟩
  exact hcounts.2 hmoved

namespace Session

theorem exists_stack_announce (style : Style) {changes : List (Change Item)} (h : changes ≠ [])
    (items : List Item) : ∃ c, Event.stack c ∈ announce style changes items := by
  obtain ⟨c, changes, rfl⟩ := List.exists_cons_of_ne_nil h
  unfold announce
  split
  · exact ⟨_, List.mem_cons_self⟩
  · exact ⟨_, List.mem_cons_self⟩

/-- What a line does to the versions. Either it leaves the session as it is and tells of no change
of the stack, or it makes a later version, tells of it, and the versions that can then be restored
are among those before and the one it replaces. -/
inductive Dates (s : Session) : Submission → Prop where
  | unchanged {events : List Event} {outcome : Except Error Unit}
      (htold : ∀ c, Event.stack c ∉ events) : Dates s ⟨s, events, outcome⟩
  | later {stack : Stack} {history : History} {events : List Event} {outcome : Except Error Unit}
      (hversion : s.stack.version < stack.version)
      (hentries : history.entries.Subperm (s.stack.toSnapshot :: s.history.entries))
      (htold : ∃ c, Event.stack c ∈ events) :
      Dates s ⟨{ s with stack, history, published := stack.toSnapshot }, events, outcome⟩

theorem dates_travel (s : Session) (t : Travel) :
    s.Dates ⟨(s.travel t).1, (s.travel t).2, .ok ()⟩ := by
  unfold travel
  cases h : s.destination? t with
  | none => exact .unchanged (by simp)
  | some destination =>
      obtain ⟨old, history⟩ := destination
      have htold := exists_stack_announce s.settings.style
        (List.cons_ne_nil (s.stack.restore old).2 []) (s.stack.restore old).1.items
      refine .later (Nat.lt_succ_self _) ?_ htold
      cases t with
      | undo => exact History.entries_undo?_subperm h
      | redo => exact History.entries_redo?_subperm h

theorem dates_commit {s : Session} {tokens : List String} {d : Draft}
    (hrun : s.evaluator.run s.stack tokens = .ok d) :
    s.Dates ⟨(s.commit d).1, (s.commit d).2, .ok ()⟩ := by
  unfold commit
  by_cases hmoved : d.changes = []
  · simp only [hmoved, List.isEmpty_nil, if_true]
    exact .unchanged (by simp)
  · rw [if_neg (by simpa using hmoved)]
    obtain ⟨c, hc⟩ := exists_stack_announce s.settings.style hmoved d.stack.items
    exact .later (Evaluator.version_lt_of_run hrun hmoved) (History.entries_record_subperm _ _)
      ⟨c, List.mem_append_left _ hc⟩

theorem dates_submit (s : Session) (line : String) : s.Dates (s.submit line) := by
  have h := submit_yields s line
  generalize s.submit line = sub at h
  cases h with
  | failed _ => exact .unchanged (by simp)
  | travelled _ _ => exact dates_travel s _
  | evaluated _ _ hrun => exact dates_commit hrun

theorem version_le_submit (s : Session) (line : String) :
    s.stack.version ≤ (s.submit line).session.stack.version := by
  have h := dates_submit s line
  generalize s.submit line = sub at h
  cases h with
  | unchanged _ => exact le_rfl
  | later hversion _ _ => exact hversion.le

/-- The version goes up where a change of the stack is told. -/
theorem version_lt_submit_iff (s : Session) (line : String) :
    s.stack.version < (s.submit line).session.stack.version ↔
      ∃ c, Event.stack c ∈ (s.submit line).events := by
  have h := dates_submit s line
  generalize s.submit line = sub at h
  cases h with
  | unchanged htold => simpa using htold
  | later hversion _ htold => exact iff_of_true hversion htold

/-! ## Any number of lines -/

/-- Readers see the stack, and no version in the history is that of the stack, or stands twice. -/
structure Dated (s : Session) : Prop where
  published : s.published = s.stack.toSnapshot
  older : ∀ old ∈ s.history.entries, old.version < s.stack.version
  distinct : (s.history.entries.map Snapshot.version).Nodup

theorem dated_start (catalog : Catalog) (settings : Settings) (claims : String → Bool) :
    (start catalog settings claims).Dated :=
  ⟨rfl, List.forall_mem_nil _, List.nodup_nil⟩

theorem Dated.submit {s : Session} (hs : s.Dated) (line : String) :
    (s.submit line).session.Dated := by
  have h := dates_submit s line
  generalize s.submit line = sub at h
  cases h with
  | unchanged _ => exact hs
  | @later stack history _ _ hversion hentries _ =>
      refine ⟨rfl, fun old hold => ?_, ?_⟩
      · rcases List.mem_cons.mp (hentries.subset hold) with rfl | hold
        · exact hversion
        · exact (hs.older old hold).trans hversion
      · obtain ⟨kept, hkept, hsub⟩ := hentries
        -- The stack's own version is new to the history, as it is later than all others there.
        have hnew : s.stack.version ∉ s.history.entries.map Snapshot.version := by
          rintro hmem
          obtain ⟨old, hold, heq⟩ := List.mem_map.mp hmem
          exact absurd heq (hs.older old hold).ne
        have hall : ((s.stack.toSnapshot :: s.history.entries).map Snapshot.version).Nodup :=
          List.nodup_cons.mpr ⟨hnew, hs.distinct⟩
        exact (hkept.map _).nodup_iff.mp (hall.sublist (hsub.map _))

theorem Dated.submitAll {s : Session} (hs : s.Dated) (lines : List String) :
    (s.submitAll lines).1.Dated :=
  submitAll_preserves (P := Dated) (fun _ line h => h.submit line) hs lines

theorem version_le_submitAll (s : Session) (lines : List String) :
    s.stack.version ≤ (s.submitAll lines).1.stack.version :=
  submitAll_preserves (P := fun after => s.stack.version ≤ after.stack.version)
    (fun after line h => h.trans (version_le_submit after line)) le_rfl lines

/-- A session that still has its version has not changed at all. -/
theorem submitAll_eq_of_version_eq {s : Session} {lines : List String}
    (h : (s.submitAll lines).1.stack.version = s.stack.version) : (s.submitAll lines).1 = s := by
  induction lines generalizing s with
  | nil => rfl
  | cons line lines ih =>
      rw [Session.submitAll] at h ⊢
      have hrest := version_le_submitAll (s.submit line).session lines
      have hline := dates_submit s line
      generalize s.submit line = sub at h hrest hline
      cases hline with
      | unchanged _ => exact ih h
      | later hversion _ _ => exact absurd (hrest.trans h.le) hversion.not_ge

/-- Of two times in a run, readers see the same wherever they see the same version. -/
theorem published_eq_of_version_eq {s : Session} (hs : s.Dated) {lines before before' : List String}
    (hbefore : before <+: lines) (hbefore' : before' <+: lines)
    (h : (s.submitAll before).1.published.version = (s.submitAll before').1.published.version) :
    (s.submitAll before).1.published = (s.submitAll before').1.published := by
  wlog hle : before <+: before' generalizing before before' with hsymm
  · have hge : before' <+: before :=
      (List.prefix_or_prefix_of_prefix hbefore hbefore').resolve_left hle
    exact (hsymm hbefore' hbefore h.symm hge).symm
  · obtain ⟨more, rfl⟩ := hle
    have hfirst := hs.submitAll before
    have hmore := hfirst.submitAll more
    rw [submitAll_append] at h ⊢
    rw [hfirst.published, hmore.published] at h
    dsimp only
    rw [submitAll_eq_of_version_eq h.symm]

/-- In every run readers see the stack of the session. A line never takes the version back, and it
goes on exactly where the line tells of a change of the stack. The versions in the history are
different from each other and earlier than that of the stack. Whoever sees the same version twice
has therefore seen the same items. -/
theorem versions_identify_snapshots (catalog : Catalog) (settings : Settings)
    (claims : String → Bool) (lines : List String) :
    let after (lines : List String) := ((start catalog settings claims).submitAll lines).1
    let s := after lines
    s.published = s.stack.toSnapshot ∧
      (∀ line, s.stack.version ≤ (s.submit line).session.stack.version ∧
        (s.stack.version < (s.submit line).session.stack.version ↔
          ∃ c, Event.stack c ∈ (s.submit line).events)) ∧
      (∀ old ∈ s.history.past ++ s.history.future, old.version < s.stack.version) ∧
      ((s.history.past ++ s.history.future).map Snapshot.version).Nodup ∧
      ∀ before before', before <+: lines → before' <+: lines →
        (after before).published.version = (after before').published.version →
        (after before).published = (after before').published := by
  intro after s
  have hstart := dated_start catalog settings claims
  have hs : s.Dated := hstart.submitAll lines
  refine ⟨hs.published, fun line => ⟨version_le_submit s line, version_lt_submit_iff s line⟩,
    hs.older, hs.distinct, fun before before' hbefore hbefore' h => ?_⟩
  exact published_eq_of_version_eq hstart hbefore hbefore' h

end Session

end ReversePolish
