import ReversePolish.Proofs.Session.Timeline
import ReversePolish.Proofs.Token.Words

/-! # Lines in sequence

What a token does depends on nothing but the stack that it finds. Tokens on two lines therefore do
what they do on one, unless the first line succeeds and the second fails. -/

namespace ReversePolish

open Outcome

/-- A draft and another that began on its stack, as one. -/
def Draft.andThen (d more : Draft) : Draft :=
  ⟨more.stack, d.changes ++ more.changes, d.claimed ++ more.claimed⟩

theorem Draft.andThen_change (d : Draft) (s : Stack) (changed : Stack × List (Change Item)) :
    d.andThen (({ stack := s } : Draft).change changed) = d.change changed := by
  simp [andThen, change]

namespace Evaluator

theorem step_eq (e : Evaluator) (d : Draft) (token : String) :
    e.step d token = (e.step { stack := d.stack } token).map d.andThen := by
  simp only [step]
  cases e.meaning token with
  | error err => rfl
  | ok meaning =>
      cases meaning with
      | literal l =>
          simp only [bind, Except.bind, perform]
          cases d.stack.push (e.literalItem l) with
          | error err => rfl
          | ok pushed => simp [Except.map, Draft.andThen_change]
      | operator op =>
          simp only [bind, Except.bind, perform]
          cases d.stack.operate e.limits op with
          | error err => rfl
          | ok operated => simp [Except.map, Draft.andThen_change]
      | claimed => simp [bind, Except.bind, perform, Except.map, Draft.andThen]
      | command c =>
          simp only [bind, Except.bind, perform]
          split
          · rfl
          · cases d.stack.runCommand c with
            | error err => rfl
            | ok next => simp [Except.map, Draft.andThen_change]

/-- A draft goes on as one that begins on its stack. -/
theorem foldlM_step_eq (e : Evaluator) (d : Draft) (tokens : List String) :
    tokens.foldlM e.step d = (e.run d.stack tokens).map d.andThen := by
  induction tokens generalizing d with
  | nil => simp [run, pure, Except.pure, Except.map, Draft.andThen]
  | cons token tokens ih =>
      rw [run, List.foldlM_cons, List.foldlM_cons, step_eq]
      cases e.step { stack := d.stack } token with
      | error err => rfl
      | ok first =>
          simp only [bind, Except.bind, Except.map]
          rw [ih, ih first]
          cases hrest : e.run first.stack tokens with
          | error err => simp [Draft.andThen, hrest, Except.map]
          | ok rest => simp [Draft.andThen, hrest, Except.map]

theorem run_append (e : Evaluator) (s : Stack) (as bs : List String) :
    e.run s (as ++ bs) = e.run s as >>= fun d => (e.run d.stack bs).map d.andThen := by
  rw [run, List.foldlM_append]
  simp only [foldlM_step_eq e _ bs]
  rfl

/-- Tokens for steps through the history that the presentation takes over are none. -/
theorem travel?_eq_none_of_claimed {e : Evaluator} {tokens : List String}
    (h : ∀ token ∈ tokens, token ∈ ["\\undo", "\\redo"] → e.claims token = true) :
    e.travel? tokens = none := by
  refine travel?_eq_none fun t htokens hmeans => ?_
  obtain ⟨-, -, hclaim⟩ := means_travel_iff.mp hmeans
  have hname : t.token ∈ ["\\undo", "\\redo"] := by
    cases t <;> decide +kernel
  rw [h _ (htokens ▸ List.mem_singleton_self _) hname] at hclaim
  cases hclaim

end Evaluator

/-! ## What the presentation is handed -/

/-- The token for the presentation that is due with an event. -/
def Event.command? : Event → Option String
  | .command token => some token
  | _ => none

/-- The tokens for the presentation that are due, in order. -/
def Event.commands (events : List Event) : List String := events.filterMap Event.command?

theorem Event.commands_append (events more : List Event) :
    commands (events ++ more) = commands events ++ commands more :=
  List.filterMap_append

theorem Event.commands_map_command (tokens : List String) :
    commands (tokens.map command) = tokens := by
  simp [commands, command?, List.filterMap_map, Function.comp_def]

namespace Session

theorem commands_announce (style : Style) (changes : List (Change Item)) (items : List Item) :
    Event.commands (announce style changes items) = [] := by
  simp only [announce]
  split
  · rfl
  · simp [Event.commands, Event.command?, List.filterMap_eq_nil_iff]

theorem commands_commit (s : Session) (d : Draft) :
    Event.commands (s.commit d).2 = d.claimed := by
  simp only [commit]
  split
  · exact Event.commands_map_command d.claimed
  · rw [Event.commands_append, commands_announce, Event.commands_map_command, List.nil_append]

/-! ## One line after another -/

theorem stack_commit {s : Session} {d : Draft} (h : d.Follows s.stack) :
    (s.commit d).1.stack = d.stack := by
  by_cases hd : d.changes = []
  · rw [commit_of_unmoved hd, h.unmoved hd]
  · simp [commit, hd]

theorem published_commit (s : Session) (d : Draft) :
    (s.commit d).1.published = if d.changes = [] then s.published else d.stack.toSnapshot := by
  by_cases hd : d.changes = []
  · rw [commit_of_unmoved hd, if_pos hd]
  · simp [commit, hd]

theorem submit_of_run_error {s : Session} {line : String} {tokens : List String} {err : Error}
    (hline : Token.words line = .ok tokens) (ht : s.evaluator.travel? tokens = none)
    (hrun : s.evaluator.run s.stack tokens = .error err) :
    s.submit line = ⟨s, [.error err.message], .error err⟩ := by
  apply submit_of_evaluate_eq_error
  rw [evaluate_eq, hline]
  simp [bind, Except.bind, ht, hrun, Except.map]

/-- Two drafts, of which the second begins where the first ends, may be committed as one, as far
as the history is left aside. -/
theorem commit_andThen {s : Session} {d more : Draft} (hd : d.Follows s.stack)
    (hmore : more.Follows d.stack) :
    let joined := s.commit (d.andThen more)
    let first := s.commit d
    let second := first.1.commit more
    joined.1.stack = second.1.stack ∧ joined.1.published = second.1.published ∧
      Event.commands joined.2 = Event.commands first.2 ++ Event.commands second.2 := by
  intro joined first second
  have hfirst : first.1.stack = d.stack := stack_commit hd
  have hjoined : (d.andThen more).Follows s.stack := by
    constructor
    · rw [Draft.andThen, Change.replay?_append, hd.replay, Option.bind_some, hmore.replay]
    · intro hnil
      obtain ⟨hnil, hnil'⟩ := List.append_eq_nil_iff.mp hnil
      exact (hmore.unmoved hnil').trans (hd.unmoved hnil)
  refine ⟨?_, ?_, ?_⟩
  · rw [stack_commit hjoined, stack_commit (hfirst ▸ hmore)]
    rfl
  · simp only [joined, second, first, published_commit, Draft.andThen, List.append_eq_nil_iff]
    by_cases hnil : more.changes = []
    · rw [hmore.unmoved hnil]
      simp [hnil]
    · simp [hnil]
  · simp only [joined, second, first, commands_commit, Draft.andThen]

/-- A line that consists of two others, neither of which steps through the history, succeeds where
they succeed one after the other, with the same stack, the same version of it and the same tokens
for the presentation. Else it fails as the first of them does that fails, and leaves the session as
it was before both. -/
theorem submit_joined (s : Session) {a b : String} {as bs : List String}
    (ha : Token.words a = .ok as) (hb : Token.words b = .ok bs)
    (htravel : ∀ token ∈ as ++ bs, token ∈ ["\\undo", "\\redo"] →
      s.evaluator.claims token = true) :
    let joined := s.submit (a ++ " " ++ b)
    let first := s.submit a
    let second := first.session.submit b
    (joined.outcome = .ok () ↔ first.outcome = .ok () ∧ second.outcome = .ok ()) ∧
      (joined.outcome = .ok () →
        joined.session.stack = second.session.stack ∧
        joined.session.published = second.session.published ∧
        Event.commands joined.events =
          Event.commands first.events ++ Event.commands second.events) ∧
      (∀ err, joined.outcome = .error err → joined.session = s ∧
        (first.outcome = .error err ∨ first.outcome = .ok () ∧ second.outcome = .error err)) := by
  intro joined first second
  have hline := Token.words_append ha hb
  have htravels := Evaluator.travel?_eq_none_of_claimed htravel
  have hrun := s.evaluator.run_append s.stack as bs
  obtain ⟨htravel, htravel'⟩ := List.forall_mem_append.mp htravel
  cases hfirst : s.evaluator.run s.stack as with
  | error err =>
      rw [hfirst] at hrun
      have hjoined : joined = ⟨s, [.error err.message], .error err⟩ :=
        submit_of_run_error hline htravels hrun
      have hfirst : first = ⟨s, [.error err.message], .error err⟩ :=
        submit_of_run_error ha (Evaluator.travel?_eq_none_of_claimed htravel) hfirst
      simp [hjoined, hfirst]
  | ok d =>
      have hd := Evaluator.follows_run hfirst
      rw [hfirst] at hrun
      have hfirst : first = ⟨(s.commit d).1, (s.commit d).2, .ok ()⟩ := submit_of_run ha hfirst
      have hevaluator : first.session.evaluator = s.evaluator := evaluator_submit s a
      have hstack : first.session.stack = d.stack := by
        rw [hfirst]
        exact stack_commit hd
      have hnext := Evaluator.travel?_eq_none_of_claimed htravel'
      cases hsecond : s.evaluator.run d.stack bs with
      | error err =>
          have hjoined : joined = ⟨s, [.error err.message], .error err⟩ := by
            refine submit_of_run_error hline htravels (hrun.trans ?_)
            simp [bind, Except.bind, hsecond, Except.map]
          rw [← hevaluator] at hnext hsecond
          rw [← hstack] at hsecond
          have hsecond : second = ⟨first.session, [.error err.message], .error err⟩ :=
            submit_of_run_error hb hnext hsecond
          simp [hjoined, hfirst, hsecond]
      | ok more =>
          have hmore := Evaluator.follows_run hsecond
          have hjoined : joined = ⟨(s.commit (d.andThen more)).1, (s.commit (d.andThen more)).2,
              .ok ()⟩ := by
            refine submit_of_run hline (hrun.trans ?_)
            simp [bind, Except.bind, hsecond, Except.map]
          rw [← hevaluator, ← hstack] at hsecond
          have hsecond : second = ⟨(first.session.commit more).1, (first.session.commit more).2,
              .ok ()⟩ := submit_of_run hb hsecond
          rw [hfirst] at hsecond
          have hsame := commit_andThen hd hmore
          simpa [hjoined, hfirst, hsecond] using hsame

/-- Two lines with tokens that the presentation takes over in the place of steps back. -/
theorem submit_joined_around_claimed_undo :
    let s := start (Catalog.standard.toOption.getD .empty) {} (· = "\\undo")
    let joined := s.submit ("6 \\undo [1, 2]" ++ " " ++ "\\undo *")
    let second := (s.submit "6 \\undo [1, 2]").session.submit "\\undo *"
    joined.outcome = .ok () ∧ joined.session.stack = second.session.stack ∧
      Event.commands joined.events = ["\\undo", "\\undo"] := by
  intro s joined second
  have hlines : Token.words "6 \\undo [1, 2]" = .ok ["6", "\\undo", "[1, 2]"] ∧
      Token.words "\\undo *" = .ok ["\\undo", "*"] := by decide +kernel
  have hclaims : ∀ token ∈ ["6", "\\undo", "[1, 2]"] ++ ["\\undo", "*"],
      token ∈ ["\\undo", "\\redo"] → s.evaluator.claims token = true := by decide +kernel
  obtain ⟨-, hsame, -⟩ := submit_joined s hlines.1 hlines.2 hclaims
  have hjoined : joined.outcome = .ok () := by decide +kernel
  obtain ⟨hstack, -, hcommands⟩ := hsame hjoined
  refine ⟨hjoined, hstack, hcommands.trans ?_⟩
  decide +kernel

end Session

end ReversePolish
