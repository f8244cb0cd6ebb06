import ReversePolish.Catalog.Standard
import ReversePolish.Proofs.Session.Meaning
import ReversePolish.Proofs.Stack.Operations
import ReversePolish.Proofs.Token.Respelled

/-! # Sessions that differ in how numbers are written

The radix of an integer and the precision of reals come with a literal and go with every item that
is made of it, but no step looks at them. Sessions that differ in nothing else keep the same values,
whatever the spelling of integers in their lines. -/

namespace ReversePolish

open Outcome

/-! ## Stacks of the same values -/

/-- The values of the items, without the input that led to them, and the version. -/
def Snapshot.values (s : Snapshot) : List Value × ℕ := (s.items.map Item.result, s.version)

structure Stack.Matches (s t : Stack) : Prop where
  values : t.toSnapshot.values = s.toSnapshot.values
  maxDepth : t.maxDepth = s.maxDepth

/-- Two options that are alike under a function are both empty, or hold such elements. -/
theorem eq_none_or_some_of_map_eq {α β : Type} {f : α → β} {x y : Option α}
    (h : y.map f = x.map f) :
    (x = none ∧ y = none) ∨ ∃ a b, x = some a ∧ y = some b ∧ f b = f a := by
  cases x with
  | none => exact .inl ⟨rfl, Option.map_eq_none_iff.mp h⟩
  | some a =>
      obtain ⟨b, hb, hab⟩ := Option.map_eq_some_iff.mp h
      exact .inr ⟨a, b, rfl, hb, hab⟩

namespace Stack.Matches

variable {s t : Stack}

theorem results (h : s.Matches t) : t.items.map Item.result = s.items.map Item.result :=
  congrArg Prod.fst h.values

theorem version (h : s.Matches t) : t.version = s.version := congrArg Prod.snd h.values

theorem size (h : s.Matches t) : t.size = s.size := by
  simpa [Stack.size] using congrArg List.length h.results

theorem update (h : s.Matches t) {items items' : List Item}
    (hitems : items'.map Item.result = items.map Item.result) :
    (s.update items).Matches (t.update items') :=
  ⟨Prod.ext hitems (congrArg (· + 1) h.version), h.maxDepth⟩

/-- Stacks after an operation that tells of as many changes. -/
def StaysMatched (x y : Stack × List (Change Item)) : Prop :=
  x.1.Matches y.1 ∧ y.2.length = x.2.length

theorem checkDepth (h : s.Matches t) (size : ℕ) : t.checkDepth size = s.checkDepth size := by
  simp only [Stack.checkDepth, h.maxDepth]

theorem push (h : s.Matches t) {item item' : Item} (hitem : item'.result = item.result) :
    Lockstep (fun x y => x.1.Matches y.1) (s.push item) (t.push item') := by
  rw [push_eq, push_eq, h.size, h.checkDepth]
  refine .bind_left _ fun _ => .given (h.update ?_)
  simp [h.results, hitem]

theorem replaceRange (h : s.Matches t) (start count : ℕ) {items items' : List Item}
    (hitems : items'.map Item.result = items.map Item.result) :
    Lockstep StaysMatched (s.replaceRange start count items)
      (t.replaceRange start count items') := by
  have hlength : items'.length = items.length := by simpa using congrArg List.length hitems
  rw [replaceRange_eq, replaceRange_eq, h.size, hlength, h.checkDepth]
  split
  · exact .failed _
  · refine .bind_left _ fun _ => .given ⟨h.update ?_, ?_⟩
    · simp [h.results, hitems, List.map_take, List.map_drop]
    · split
      · simp [hlength]
      · rfl

theorem operate (h : s.Matches t) (limits : Limits) (op : Operator) :
    Lockstep StaysMatched (s.operate limits op) (t.operate limits op) := by
  have hoperands : (t.items.drop (s.size - op.arity)).map Item.result =
      (s.items.drop (s.size - op.arity)).map Item.result := by
    rw [List.map_drop, List.map_drop, h.results]
  rw [operate_def, operate_def, h.size]
  split
  · exact .failed _
  · dsimp only
    rw [hoperands]
    exact .bind_left _ fun _ => h.replaceRange _ _ rfl

theorem top?_cases (h : s.Matches t) :
    (s.top? = none ∧ t.top? = none) ∨
      ∃ top top', s.top? = some top ∧ t.top? = some top' ∧ top'.result = top.result := by
  apply eq_none_or_some_of_map_eq
  rw [top?, top?, ← List.getLast?_map, ← List.getLast?_map, h.results]

theorem edit (h : s.Matches t) (edit : Edit) :
    Lockstep StaysMatched (s.runCommand (.edit edit)) (t.runCommand (.edit edit)) := by
  cases edit with
  | clear => exact .given ⟨h.update rfl, rfl⟩
  | pop =>
      have hbelow : t.items.dropLast.map Item.result = s.items.dropLast.map Item.result := by
        rw [List.map_dropLast, List.map_dropLast, h.results]
      rw [runCommand_pop, runCommand_pop, pop_eq, pop_eq]
      rcases h.top?_cases with ⟨hs, ht⟩ | ⟨top, top', hs, ht, -⟩
      · rw [hs, ht]
        exact .failed _
      · rw [hs, ht]
        exact .given ⟨h.update hbelow, rfl⟩
  | dup =>
      rw [runCommand_dup, runCommand_dup]
      rcases h.top?_cases with ⟨hs, ht⟩ | ⟨top, top', hs, ht, hresult⟩
      · rw [hs, ht]
        exact .failed _
      · rw [hs, ht]
        exact (h.push hresult).map fun _ _ hpushed => ⟨hpushed, rfl⟩
  | swap =>
      have hlast : (t.items.drop (s.size - 2)).map Item.result =
          (s.items.drop (s.size - 2)).map Item.result := by
        rw [List.map_drop, List.map_drop, h.results]
      rw [runCommand_swap, runCommand_swap, h.size]
      generalize s.items.drop (s.size - 2) = xs at hlast
      generalize t.items.drop (s.size - 2) = ys at hlast
      split
      · next below top =>
        obtain ⟨below', _, rfl, hbelow, hrest⟩ := List.map_eq_cons_iff.mp hlast
        obtain ⟨top', _, rfl, htop, hrest⟩ := List.map_eq_cons_iff.mp hrest
        obtain rfl := List.map_eq_nil_iff.mp hrest
        exact h.replaceRange _ _ (by simp [hbelow, htop])
      · next hnot =>
        split
        · obtain ⟨below, _, rfl, -, hrest⟩ := List.map_eq_cons_iff.mp hlast.symm
          obtain ⟨top, _, rfl, -, hrest⟩ := List.map_eq_cons_iff.mp hrest
          obtain rfl := List.map_eq_nil_iff.mp hrest
          exact absurd rfl (hnot below top)
        · exact .failed _

end Stack.Matches

/-! ## Tokens -/

/-- Drafts on stacks of the same values, which hand the same tokens to the presentation. -/
structure Draft.Matches (d d' : Draft) : Prop where
  stack : d.stack.Matches d'.stack
  changes : d'.changes.length = d.changes.length
  claimed : d'.claimed = d.claimed

theorem Draft.Matches.change {d d' : Draft} (h : d.Matches d') {x y : Stack × List (Change Item)}
    (hxy : Stack.Matches.StaysMatched x y) : (d.change x).Matches (d'.change y) :=
  ⟨hxy.1, by simp [Draft.change, h.changes, hxy.2], h.claimed⟩

namespace Evaluator

variable {e : Evaluator} {style : Style}

theorem push_matches {d d' : Draft} (h : d.Matches d') {l l' : Literal}
    (hvalue : l'.value = l.value) (a b : String) :
    Lockstep Draft.Matches (e.perform d a (.literal l))
      ({ e with style }.perform d' b (.literal l')) := by
  refine (h.stack.push ?_).bind fun _ _ hpushed => .given (h.change ⟨hpushed, rfl⟩)
  exact hvalue

theorem perform_matches {d d' : Draft} (h : d.Matches d') (token : String) (meaning : Meaning) :
    Lockstep Draft.Matches (e.perform d token meaning)
      ({ e with style }.perform d' token meaning) := by
  cases meaning with
  | literal l => exact push_matches h rfl token token
  | operator op => exact (h.stack.operate e.limits op).map fun _ _ hxy => h.change hxy
  | claimed => exact .given ⟨h.stack, h.changes, by simp only [h.claimed]⟩
  | command c =>
      cases c with
      | edit edit => exact (h.stack.edit edit).map fun _ _ hxy => h.change hxy
      | travel t => exact .failed _

/-- The spelling of an integer decides on the style of its item, and the style on nothing. -/
theorem step_matches {d d' : Draft} (h : d.Matches d') {a b : String}
    (htoken : Token.Respelled a b) :
    Lockstep Draft.Matches (e.step d a) ({ e with style }.step d' b) := by
  cases htoken with
  | same =>
      have hsame : { e with style }.meaning a = e.meaning a := rfl
      unfold step
      rw [hsame]
      exact .bind_left _ fun meaning => perform_matches h a meaning
  | @integer _ n ha hb =>
      obtain ⟨r, ha⟩ := ha.read_eq
      obtain ⟨r', hb⟩ := hb.read_eq
      let l : Literal := { value := .ofInt n, style := { radix := r } }
      let l' : Literal := { value := .ofInt n, style := { radix := r' } }
      have hmeans : e.meaning a = .ok (.literal l) := (Means.literal ha).meaning_eq
      have hmeans' : { e with style }.meaning b = .ok (.literal l') := (Means.literal hb).meaning_eq
      have hvalue : l'.value = l.value := rfl
      unfold step
      rw [hmeans, hmeans']
      exact push_matches h hvalue a b

theorem run_matches {s t : Stack} (h : s.Matches t) {tokens tokens' : List String}
    (htokens : List.Forall₂ Token.Respelled tokens tokens') :
    Lockstep Draft.Matches (e.run s tokens) ({ e with style }.run t tokens') := by
  have hstart : Draft.Matches { stack := s } { stack := t } := ⟨h, rfl, rfl⟩
  unfold run
  exact Lockstep.foldlM (q := Token.Respelled)
    (fun _ _ _ _ htoken h => step_matches h htoken) hstart htokens

theorem travel?_respelled {tokens tokens' : List String}
    (htokens : List.Forall₂ Token.Respelled tokens tokens') :
    { e with style }.travel? tokens' = e.travel? tokens := by
  cases htokens with
  | nil => rfl
  | cons htoken hrest =>
      cases hrest with
      | nil =>
          cases htoken with
          | same => rfl
          | integer ha hb =>
              obtain ⟨r, ha⟩ := ha.read_eq
              obtain ⟨r', hb⟩ := hb.read_eq
              simp [travel?, (Means.literal ha).meaning_eq, (Means.literal hb).meaning_eq]
      | cons => rfl

end Evaluator

/-! ## Histories -/

structure History.Matches (h k : History) : Prop where
  past : k.past.map Snapshot.values = h.past.map Snapshot.values
  future : k.future.map Snapshot.values = h.future.map Snapshot.values
  limit : k.limit = h.limit

namespace History.Matches

variable {h k : History}

theorem canUndo (hk : h.Matches k) : k.canUndo = h.canUndo := by
  rw [History.canUndo, ← List.isEmpty_map, hk.past, List.isEmpty_map, History.canUndo]

theorem canRedo (hk : h.Matches k) : k.canRedo = h.canRedo := by
  rw [History.canRedo, ← List.isEmpty_map, hk.future, List.isEmpty_map, History.canRedo]

theorem record (hk : h.Matches k) {old old' : Snapshot} (hold : old'.values = old.values) :
    (h.record old).Matches (k.record old') := by
  have hlength : k.past.length = h.past.length := by simpa using congrArg List.length hk.past
  refine ⟨?_, rfl, hk.limit⟩
  simp [History.record, List.map_drop, hk.past, hk.limit, hold, hlength]

/-- Versions to which the history leads, and the histories then. -/
def LeadAlike (x y : Snapshot × History) : Prop := y.1.values = x.1.values ∧ x.2.Matches y.2

theorem undo? (hk : h.Matches k) {current current' : Snapshot}
    (hcurrent : current'.values = current.values) :
    (h.undo? current = none ∧ k.undo? current' = none) ∨
      ∃ x y, h.undo? current = some x ∧ k.undo? current' = some y ∧ LeadAlike x y := by
  have hlast : k.past.getLast?.map Snapshot.values = h.past.getLast?.map Snapshot.values := by
    rw [← List.getLast?_map, ← List.getLast?_map, hk.past]
  have hbelow : k.past.dropLast.map Snapshot.values = h.past.dropLast.map Snapshot.values := by
    rw [List.map_dropLast, List.map_dropLast, hk.past]
  unfold History.undo?
  rcases eq_none_or_some_of_map_eq hlast with ⟨hs, ht⟩ | ⟨old, old', hs, ht, hold⟩
  · rw [hs, ht]
    exact .inl ⟨rfl, rfl⟩
  · rw [hs, ht]
    exact .inr ⟨_, _, rfl, rfl, hold, hbelow, by simp [hk.future, hcurrent], hk.limit⟩

theorem redo? (hk : h.Matches k) {current current' : Snapshot}
    (hcurrent : current'.values = current.values) :
    (h.redo? current = none ∧ k.redo? current' = none) ∨
      ∃ x y, h.redo? current = some x ∧ k.redo? current' = some y ∧ LeadAlike x y := by
  have hhead : k.future.head?.map Snapshot.values = h.future.head?.map Snapshot.values := by
    rw [← List.head?_map, ← List.head?_map, hk.future]
  have htail : k.future.tail.map Snapshot.values = h.future.tail.map Snapshot.values := by
    rw [List.map_tail, List.map_tail, hk.future]
  unfold History.redo?
  rcases eq_none_or_some_of_map_eq hhead with ⟨hs, ht⟩ | ⟨next, next', hs, ht, hnext⟩
  · rw [hs, ht]
    exact .inl ⟨rfl, rfl⟩
  · rw [hs, ht]
    exact .inr ⟨_, _, rfl, rfl, hnext, by simp [hk.past, hcurrent], htail, hk.limit⟩

end History.Matches

/-! ## Lines -/

namespace Session

/-- Sessions of the same values, now and in their histories. -/
structure Matches (s t : Session) : Prop where
  evaluator : t.evaluator = { s.evaluator with style := t.evaluator.style }
  stack : s.stack.Matches t.stack
  history : s.history.Matches t.history
  published : t.published.values = s.published.values

/-- The precision of reals has no say in the values of a session. -/
theorem matches_start (catalog : Catalog) (settings : Settings) (precision : Option ℕ)
    (claims : String → Bool) :
    (start catalog settings claims).Matches
      (start catalog { settings with realPrecision := precision } claims) :=
  ⟨rfl, ⟨rfl, rfl⟩, ⟨rfl, rfl, rfl⟩, rfl⟩

namespace Matches

variable {s t : Session}

theorem destination? (h : s.Matches t) (way : Travel) :
    (s.destination? way = none ∧ t.destination? way = none) ∨
      ∃ x y, s.destination? way = some x ∧ t.destination? way = some y ∧
        History.Matches.LeadAlike x y := by
  cases way with
  | undo => exact h.history.undo? h.stack.values
  | redo => exact h.history.redo? h.stack.values

theorem travel (h : s.Matches t) (way : Travel) : (s.travel way).1.Matches (t.travel way).1 := by
  unfold Session.travel
  rcases h.destination? way with ⟨hs, ht⟩ | ⟨⟨old, past⟩, ⟨old', past'⟩, hs, ht, hold, hpast⟩
  · rw [hs, ht]
    exact h
  · rw [hs, ht]
    have hstack : (s.stack.restore old).1.Matches (t.stack.restore old').1 :=
      h.stack.update (congrArg Prod.fst hold)
    exact ⟨h.evaluator, hstack, hpast, hstack.values⟩

theorem commit (h : s.Matches t) {d d' : Draft} (hd : d.Matches d') :
    (s.commit d).1.Matches (t.commit d').1 := by
  have hmoved : d'.changes.isEmpty = d.changes.isEmpty := by
    rw [Bool.eq_iff_iff, List.isEmpty_iff_length_eq_zero, List.isEmpty_iff_length_eq_zero,
      hd.changes]
  unfold Session.commit
  rw [hmoved]
  split
  · exact h
  · exact ⟨h.evaluator, hd.stack, h.history.record h.stack.values, hd.stack.values⟩

theorem evaluate (h : s.Matches t) {line line' : String} (hline : Token.RespelledLine line line') :
    Lockstep (fun x y => x.1.Matches y.1) (s.evaluate line) (t.evaluate line') := by
  rw [evaluate_eq, evaluate_eq]
  refine hline.words_lockstep.bind fun tokens tokens' htokens => ?_
  have htravel : t.evaluator.travel? tokens' = s.evaluator.travel? tokens := by
    rw [h.evaluator]
    exact Evaluator.travel?_respelled htokens
  rw [htravel]
  cases s.evaluator.travel? tokens with
  | some way => exact .given (h.travel way)
  | none =>
      rw [h.evaluator]
      exact (Evaluator.run_matches h.stack htokens).map fun _ _ hd => h.commit hd

theorem submit (h : s.Matches t) {line line' : String} (hline : Token.RespelledLine line line') :
    (t.submit line').outcome = (s.submit line).outcome ∧
      (s.submit line).session.Matches (t.submit line').session := by
  have hevaluate := h.evaluate hline
  rw [submit_eq s, submit_eq t]
  generalize s.evaluate line = x at hevaluate
  generalize t.evaluate line' = y at hevaluate
  cases hevaluate with
  | failed err => exact ⟨rfl, h⟩
  | given hafter => exact ⟨rfl, hafter⟩

theorem submitAll (h : s.Matches t) {lines lines' : List String}
    (hlines : List.Forall₂ Token.RespelledLine lines lines') :
    (s.submitAll lines).1.Matches (t.submitAll lines').1 := by
  induction hlines generalizing s t with
  | nil => exact h
  | cons hline _ ih => exact ih (h.submit hline).2

end Matches

/-- Sessions of one catalog whose settings differ at most in the precision of reals, on lines that
differ at most in the spelling of integers: each line has the same outcome in both, with the same
error if it fails, and leaves the same values in the same version, with as much to undo and to
redo. -/
theorem formatting_makes_no_difference (catalog : Catalog) (settings : Settings)
    (precision : Option ℕ) (claims : String → Bool) {before before' : List String}
    (hbefore : List.Forall₂ Token.RespelledLine before before') {line line' : String}
    (hline : Token.RespelledLine line line') :
    let s := ((start catalog settings claims).submitAll before).1.submit line
    let t := ((start catalog { settings with realPrecision := precision } claims).submitAll
      before').1.submit line'
    t.outcome = s.outcome ∧
      t.session.stack.items.map Item.result = s.session.stack.items.map Item.result ∧
      t.session.stack.kinds = s.session.stack.kinds ∧
      t.session.stack.version = s.session.stack.version ∧
      t.session.history.canUndo = s.session.history.canUndo ∧
      t.session.history.canRedo = s.session.history.canRedo := by
  intro s t
  have hstart := matches_start catalog settings precision claims
  obtain ⟨houtcome, hafter⟩ := (hstart.submitAll hbefore).submit hline
  have hresults := hafter.stack.results
  have hkinds := congrArg (List.map Value.kind) hresults
  simp only [List.map_map, Function.comp_def] at hkinds
  exact ⟨houtcome, hresults, hkinds, hafter.stack.version, hafter.history.canUndo,
    hafter.history.canRedo⟩

/-- A quotient that is written differently in the two sessions, a line that does not split, and a
zero by which nothing is divided. -/
theorem formatting_makes_no_difference_to_quotients :
    let catalog := Catalog.standard.toOption.getD .empty
    let before := ["0xFf 3.5 /", "0b1 [2"]
    let before' := ["0255 3.5 /", "1 [2"]
    let s := ((start catalog {} fun _ => false).submitAll before).1.submit "0x0 /"
    let t := ((start catalog { realPrecision := some 3 } fun _ => false).submitAll
      before').1.submit "-00 /"
    List.Forall₂ Token.RespelledLine before before' ∧ Token.RespelledLine "0x0 /" "-00 /" ∧
      s.outcome = .error .divisionByZero ∧ t.outcome = s.outcome ∧
      t.session.stack.items.map Item.result = s.session.stack.items.map Item.result ∧
      t.session.view ≠ s.session.view := by
  intro catalog before before' s t
  have hff : Token.Respelled "0xFf" "0255" :=
    .integer (n := 255) (Literal.spells_digits false .hexadecimal ['F', 'f'] nofun (by decide))
      (Literal.spells_digits false .decimal ['0', '2', '5', '5'] nofun (by decide))
  have hone : Token.Respelled "0b1" "1" :=
    .integer (n := 1) (Literal.spells_digits false .binary ['1'] nofun (by decide))
      (Literal.spells_digits false .decimal ['1'] nofun (by decide))
  have hzero : Token.Respelled "0x0" "-00" :=
    .integer (n := 0) (Literal.spells_digits false .hexadecimal ['0'] nofun (by decide))
      (Literal.spells_digits true .decimal ['0', '0'] nofun (by decide))
  have hwords : Token.words "0xFf 3.5 /" = .ok ["0xFf", "3.5", "/"] := by decide +kernel
  have hwords' : Token.words "0255 3.5 /" = .ok ["0255", "3.5", "/"] := by decide +kernel
  have hquotient : Token.RespelledLine "0xFf 3.5 /" "0255 3.5 /" :=
    .of_words hwords hwords' (.cons hff (.cons (.same _) (.cons (.same _) .nil)))
  have hblank : ∀ c ∈ some ' ', Text.isBlank c := fun c hc => Option.some.inj hc ▸ rfl
  have hopen : Token.RespelledLine "0b1 [2" "1 [2" :=
    ⟨"0b1 ", "1 ", "[2", ["0b1"], ["1"], rfl, rfl, by decide +kernel, by decide +kernel,
      .cons hone .nil, .inl hblank, .inl hblank⟩
  have hnull : Token.words "0x0 /" = .ok ["0x0", "/"] := by decide +kernel
  have hnull' : Token.words "-00 /" = .ok ["-00", "/"] := by decide +kernel
  have hline : Token.RespelledLine "0x0 /" "-00 /" :=
    .of_words hnull hnull' (.cons hzero (.cons (.same _) .nil))
  have hbefore : List.Forall₂ Token.RespelledLine before before' :=
    .cons hquotient (.cons hopen .nil)
  obtain ⟨houtcome, hresults, -⟩ :=
    formatting_makes_no_difference catalog {} (some 3) (fun _ => false) hbefore hline
  exact ⟨hbefore, hline, by decide +kernel, houtcome, hresults, by decide +kernel⟩

end Session

end ReversePolish
