import ReversePolish.Proofs.Catalog.Persistent
import ReversePolish.Proofs.Catalog.Standard
import ReversePolish.Proofs.Session.Meaning
import ReversePolish.Proofs.Session.Submission

/-! # Sessions under stricter and looser settings

The limits of the settings refuse lines, and have no other influence on a session. Where all lines
succeed under strict settings they do so under looser ones, and nothing tells the two sessions
apart. -/

namespace ReversePolish

open Outcome

/-- Whether all results of the first computation, up to the relation, are results of the second. -/
abbrev Keeps {α β : Type} (r : α → β → Prop) : Except Error α → Except Error β → Prop :=
  Persists (fun _ => True) r

theorem Persists.keeps {α β : Type} {P : Error → Prop} {r : α → β → Prop} {x : Except Error α}
    {y : Except Error β} (h : Persists P r x y) : Keeps r x y :=
  h.mono fun _ _ => trivial

/-! ## Stacks with more room -/

/-- The same snapshot, and at least as much room. -/
structure Stack.Within (s t : Stack) : Prop where
  snapshot : t.toSnapshot = s.toSnapshot
  room : ∀ most ∈ t.maxDepth, ∃ limit ∈ s.maxDepth, limit ≤ most

namespace Stack.Within

variable {s t : Stack}

theorem items (h : s.Within t) : t.items = s.items := congrArg Snapshot.items h.snapshot

theorem size (h : s.Within t) : t.size = s.size := congrArg List.length h.items

theorem update (h : s.Within t) (items : List Item) : (s.update items).Within (t.update items) := by
  have hversion : t.version = s.version := congrArg Snapshot.version h.snapshot
  refine ⟨?_, h.room⟩
  simp only [Stack.update, hversion]

/-- Stacks after an operation that tells the same of both. -/
def Alongside {α : Type} (x y : Stack × α) : Prop := x.1.Within y.1 ∧ y.2 = x.2

theorem checkDepth (h : s.Within t) (size : ℕ) :
    Keeps Eq (s.checkDepth size) (t.checkDepth size) := by
  unfold Stack.checkDepth
  cases hmost : t.maxDepth with
  | none =>
      split
      · split
        · exact .refused trivial _
        · exact .given rfl
      · exact .given rfl
  | some most =>
      obtain ⟨limit, hlimit, hle⟩ := h.room most hmost
      simp only [Option.mem_def.mp hlimit]
      by_cases hfull : limit < size
      · rw [if_pos hfull]
        exact .refused trivial _
      · rw [if_neg hfull, if_neg (by omega)]
        exact .given rfl

theorem push (h : s.Within t) (item : Item) : Keeps Alongside (s.push item) (t.push item) := by
  rw [push_eq, push_eq, h.size, h.items]
  exact (h.checkDepth _).bind fun _ _ _ => .given ⟨h.update _, rfl⟩

theorem replaceRange (h : s.Within t) (start count : ℕ) (items : List Item) :
    Keeps Alongside (s.replaceRange start count items) (t.replaceRange start count items) := by
  rw [replaceRange_eq, replaceRange_eq, h.size, h.items]
  split
  · exact .refused trivial _
  · exact (h.checkDepth _).bind fun _ _ _ => .given ⟨h.update _, rfl⟩

theorem operate (h : s.Within t) {op : Operator} (hop : Evaluation.Persistent op.evaluate)
    {strict loose : Limits} (hlimits : strict.Within loose) :
    Keeps Alongside (s.operate strict op) (t.operate loose op) := by
  rw [operate_def, operate_def, h.size, h.items]
  split
  · exact .refused trivial _
  · have happly := Operator.apply_persistent hop strict loose hlimits
    refine (happly _).keeps.bind fun result _ hresult => ?_
    subst hresult
    exact h.replaceRange _ _ _

theorem edit (h : s.Within t) (edit : Edit) :
    Keeps Alongside (s.runCommand (.edit edit)) (t.runCommand (.edit edit)) := by
  cases edit with
  | clear => exact .given ⟨h.update [], rfl⟩
  | pop =>
      rw [runCommand_pop, runCommand_pop, pop_eq, pop_eq, top?, top?, h.items]
      cases s.items.getLast? with
      | none => exact .refused trivial _
      | some top => exact .given ⟨h.update _, rfl⟩
  | dup =>
      rw [runCommand_dup, runCommand_dup, top?, top?, h.items]
      cases s.items.getLast? with
      | none => exact .refused trivial _
      | some top =>
          exact (h.push top).map fun _ _ hpushed => ⟨hpushed.1, by simp only [hpushed.2]⟩
  | swap =>
      rw [runCommand_swap, runCommand_swap, h.size, h.items]
      split
      · exact h.replaceRange _ _ _
      · exact .refused trivial _

end Stack.Within

/-! ## Tokens -/

/-- Drafts that differ in the room of their stacks. -/
structure Draft.Within (d d' : Draft) : Prop where
  stack : d.stack.Within d'.stack
  changes : d'.changes = d.changes
  claimed : d'.claimed = d.claimed

theorem Draft.Within.change {d d' : Draft} (h : d.Within d') {x y : Stack × List (Change Item)}
    (hxy : Stack.Within.Alongside x y) : (d.change x).Within (d'.change y) :=
  ⟨hxy.1, by simp only [Draft.change, h.changes, hxy.2], h.claimed⟩

namespace Evaluator

variable {e : Evaluator} {loose : Limits}

theorem perform_keeps (hcatalog : e.catalog.Assembled) (hlimits : e.limits.Within loose)
    {d d' : Draft} (h : d.Within d') {token : String} {meaning : Meaning}
    (hmeans : e.Means token (.ok meaning)) :
    Keeps Draft.Within (e.perform d token meaning)
      ({ e with limits := loose }.perform d' token meaning) := by
  cases hmeans with
  | literal =>
      refine (h.stack.push _).bind fun _ _ hpushed => .given (h.change ⟨hpushed.1, ?_⟩)
      simp only [hpushed.2]
  | operator _ hfind =>
      have hop := hcatalog.persistent (Catalog.mem_of_find? hfind)
      exact (h.stack.operate hop hlimits).map fun _ _ hxy => h.change hxy
  | claimed => exact .given ⟨h.stack, h.changes, by simp only [h.claimed]⟩
  | @command c =>
      cases c with
      | edit edit => exact (h.stack.edit edit).map fun _ _ hxy => h.change hxy
      | travel => exact .refused trivial _

/-- No limit has a say in what a token is. -/
theorem step_keeps (hcatalog : e.catalog.Assembled) (hlimits : e.limits.Within loose)
    {d d' : Draft} (h : d.Within d') (token : String) :
    Keeps Draft.Within (e.step d token) ({ e with limits := loose }.step d' token) := by
  have hsame : { e with limits := loose }.meaning token = e.meaning token := rfl
  unfold step
  rw [hsame]
  cases hmeaning : e.meaning token with
  | error err => exact .refused trivial _
  | ok meaning => exact perform_keeps hcatalog hlimits h (means_iff.mpr hmeaning)

theorem run_keeps (hcatalog : e.catalog.Assembled) (hlimits : e.limits.Within loose)
    {s t : Stack} (h : s.Within t) (tokens : List String) :
    Keeps Draft.Within (e.run s tokens) ({ e with limits := loose }.run t tokens) :=
  have hstart : Draft.Within { stack := s } { stack := t } := ⟨h, rfl, rfl⟩
  Persists.foldlM (fun token _ _ h => step_keeps hcatalog hlimits h token) hstart tokens

end Evaluator

/-! ## Lines -/

/-- Whether the second settings allow whatever the first allow, and are the same where they allow
nothing. -/
structure Settings.Within (strict loose : Settings) : Prop where
  limits : strict.limits.Within loose.limits
  maxDepth : ∀ most ∈ loose.maxDepth, ∃ limit ∈ strict.maxDepth, limit ≤ most
  historyLimit : loose.historyLimit = strict.historyLimit
  realPrecision : loose.realPrecision = strict.realPrecision

namespace Session

/-- Sessions that differ in their limits. -/
structure Within (s t : Session) : Prop where
  assembled : s.evaluator.catalog.Assembled
  limits : s.evaluator.limits.Within t.evaluator.limits
  evaluator : t.evaluator = { s.evaluator with limits := t.evaluator.limits }
  style : t.settings.style = s.settings.style
  stack : s.stack.Within t.stack
  history : t.history = s.history
  published : t.published = s.published

theorem within_start {catalog : Catalog} (hcatalog : catalog.Assembled) {strict loose : Settings}
    (h : strict.Within loose) (claims : String → Bool) :
    (start catalog strict claims).Within (start catalog loose claims) where
  assembled := hcatalog
  limits := h.limits
  evaluator := by simp only [start, Settings.style, h.realPrecision]
  style := by simp only [start, Settings.style, h.realPrecision]
  stack := ⟨rfl, h.maxDepth⟩
  history := by simp only [start, h.historyLimit]
  published := rfl

/-- Sessions after a line that tells the same of both. -/
def Alongside (x y : Session × List Event) : Prop := x.1.Within y.1 ∧ y.2 = x.2

namespace Within

variable {s t : Session}

theorem travel (h : s.Within t) (way : Travel) : Alongside (s.travel way) (t.travel way) := by
  have hdestination : t.destination? way = s.destination? way := by
    cases way with
    | undo => simp only [destination?, h.history, h.stack.snapshot]
    | redo => simp only [destination?, h.history, h.stack.snapshot]
  unfold Session.travel
  rw [hdestination]
  cases s.destination? way with
  | none => exact ⟨h, rfl⟩
  | some destination =>
      have hstack : (s.stack.restore destination.1).1.Within (t.stack.restore destination.1).1 :=
        h.stack.update _
      refine ⟨{ h with stack := hstack, history := rfl, published := hstack.snapshot }, ?_⟩
      simp only [h.style]
      rfl

theorem commit (h : s.Within t) {d d' : Draft} (hd : d.Within d') :
    Alongside (s.commit d) (t.commit d') := by
  unfold Session.commit
  rw [hd.changes, hd.claimed]
  split
  · exact ⟨h, rfl⟩
  · refine ⟨{ h with stack := hd.stack, history := ?_, published := hd.stack.snapshot }, ?_⟩
    · simp only [h.history, h.stack.snapshot]
    · simp only [h.style, hd.stack.items]

theorem evaluate (h : s.Within t) (line : String) :
    Keeps Alongside (s.evaluate line) (t.evaluate line) := by
  rw [evaluate_eq, evaluate_eq]
  cases Token.words line with
  | error err => exact .refused trivial _
  | ok tokens =>
      have hsame : t.evaluator.travel? tokens = s.evaluator.travel? tokens := by
        rw [h.evaluator]
        rfl
      dsimp only [bind, Except.bind]
      rw [hsame]
      cases s.evaluator.travel? tokens with
      | some way => exact .given (h.travel way)
      | none =>
          rw [h.evaluator]
          have hrun := Evaluator.run_keeps h.assembled h.limits h.stack tokens
          exact hrun.map fun _ _ hd => h.commit hd

theorem submit (h : s.Within t) {line : String} (hline : (s.submit line).outcome = .ok ()) :
    (t.submit line).outcome = .ok () ∧ (t.submit line).events = (s.submit line).events ∧
      (s.submit line).session.Within (t.submit line).session := by
  rw [submit_eq] at hline
  rw [submit_eq s, submit_eq t]
  cases hs : s.evaluate line with
  | error err =>
      rw [hs] at hline
      cases hline
  | ok after =>
      obtain ⟨after', ht, hwithin, htold⟩ := (h.evaluate line).of_eq_ok hs
      rw [ht]
      exact ⟨rfl, htold, hwithin⟩

end Within

/-! ## Any number of lines -/

/-- Whether the lines succeed in turn, up to the last. -/
def Accepts (s : Session) : List String → Prop
  | [] => True
  | line :: lines => (s.submit line).outcome = .ok () ∧ (s.submit line).session.Accepts lines

theorem Accepts.of_append {s : Session} {lines more : List String}
    (h : s.Accepts (lines ++ more)) : s.Accepts lines := by
  induction lines generalizing s with
  | nil => trivial
  | cons line lines ih => exact ⟨h.1, ih h.2⟩

theorem Within.accepts {s t : Session} (h : s.Within t) {lines : List String}
    (hlines : s.Accepts lines) : t.Accepts lines := by
  induction lines generalizing s t with
  | nil => trivial
  | cons line lines ih =>
      obtain ⟨hline, -, hnext⟩ := h.submit hlines.1
      exact ⟨hline, ih hnext hlines.2⟩

theorem Within.submitAll {s t : Session} (h : s.Within t) {lines : List String}
    (hlines : s.Accepts lines) :
    (s.submitAll lines).1.Within (t.submitAll lines).1 ∧
      (t.submitAll lines).2 = (s.submitAll lines).2 := by
  induction lines generalizing s t with
  | nil => exact ⟨h, rfl⟩
  | cons line lines ih =>
      obtain ⟨-, htold, hnext⟩ := h.submit hlines.1
      obtain ⟨hlast, hrest⟩ := ih hnext hlines.2
      refine ⟨hlast, ?_⟩
      simp only [Session.submitAll, htold, hrest]

/-- Lines that all succeed under strict settings all succeed under looser ones. After each of them
the two sessions have the same items and the same version, can undo and redo the same, and have told
the same. -/
theorem limits_only_refuse {catalog : Catalog} (hcatalog : catalog.Assembled)
    {strict loose : Settings} (hsettings : strict.Within loose) (claims : String → Bool)
    {lines : List String} (hlines : (start catalog strict claims).Accepts lines) :
    (start catalog loose claims).Accepts lines ∧
      ∀ before, before <+: lines →
        let s := (start catalog strict claims).submitAll before
        let t := (start catalog loose claims).submitAll before
        t.1.stack.items = s.1.stack.items ∧ t.1.stack.version = s.1.stack.version ∧
          t.1.history.canUndo = s.1.history.canUndo ∧ t.1.history.canRedo = s.1.history.canRedo ∧
          t.1.published = s.1.published ∧ t.2 = s.2 := by
  have hstart := within_start hcatalog hsettings claims
  refine ⟨hstart.accepts hlines, ?_⟩
  rintro before ⟨more, rfl⟩ s t
  obtain ⟨hwithin, htold⟩ := hstart.submitAll hlines.of_append
  refine ⟨hwithin.stack.items, congrArg Snapshot.version hwithin.stack.snapshot, ?_, ?_,
    hwithin.published, htold⟩
  · rw [hwithin.history]
  · rw [hwithin.history]

/-- As much of everything as the strict settings allow: machine integers up to the greatest, two
items on the stack, and products of 65 bits. -/
theorem limits_only_refuse_at_the_limits :
    let catalog := Catalog.standard.toOption.getD .empty
    let strict : Settings := { promotion := .explicit, maxDepth := some 2, maxIntegerBits := 65 }
    let loose : Settings := { promotion := .onOverflow, maxDepth := none, maxIntegerBits := 66 }
    let lines := ["2 62 ^ 1 - \\dup", "+ 1 +", "\\undo", "\\redo", "bigint 2 * 1 +"]
    let s := (start catalog strict fun _ => false).submitAll lines
    let t := (start catalog loose fun _ => false).submitAll lines
    strict.Within loose ∧ (start catalog strict fun _ => false).Accepts lines ∧
      (start catalog loose fun _ => false).Accepts lines ∧
      t.1.stack.items = s.1.stack.items ∧ t.1.stack.version = s.1.stack.version ∧
      s.1.stack.items.map (·.result.integer?) = [some (2 ^ 64 - 1)] := by
  intro catalog strict loose lines s t
  have hcatalog : catalog.Assembled :=
    Catalog.assembled_of_ofLibraries (fun _ h => h) Catalog.standard_eq
  have hsettings : strict.Within loose :=
    ⟨⟨.inr ⟨rfl, rfl⟩, by decide⟩, nofun, rfl, rfl⟩
  have hlines : (start catalog strict fun _ => false).Accepts lines :=
    ⟨by decide +kernel, by decide +kernel, by decide +kernel, by decide +kernel,
      by decide +kernel, trivial⟩
  obtain ⟨hloose, hsame⟩ := limits_only_refuse hcatalog hsettings (fun _ => false) hlines
  obtain ⟨hitems, hversion, -⟩ := hsame lines (List.prefix_refl lines)
  exact ⟨hsettings, hlines, hloose, hitems, hversion, by decide +kernel⟩

end Session

end ReversePolish
