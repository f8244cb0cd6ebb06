import ReversePolish.Proofs.Catalog.Standard
import ReversePolish.Proofs.Literal.Grammar
import ReversePolish.Proofs.Session.Sequence

/-! # Tokens that the presentation takes over

They are due behind everything else that comes of a line, and the line is evaluated as if they were
not in it, except that a step through the history does not stand alone beside them. -/

namespace ReversePolish

open Outcome

/-! ## Command tokens -/

theorem Command.exists_of_isToken {token : String} (h : isToken token) :
    ∃ name, token.toList = '\\' :: name := by
  obtain ⟨name, hname⟩ := String.startsWith_string_iff.mp h
  exact ⟨name, hname.symm⟩

theorem Literal.read_of_isToken {token : String} (h : Command.isToken token) :
    read token = .ok none := by
  obtain ⟨name, hname⟩ := Command.exists_of_isToken h
  rw [read, hname]
  refine (number_eq_none rfl).mpr ?_
  intro hbegins
  cases hbegins with
  | digit hc => exact absurd hc (by decide)

namespace Catalog

theorem standard_names_not_commands : ∀ op ∈ Library.standard.flatMap Library.operators,
    ∀ name ∈ op.names, Command.isToken name = false := by
  decide +kernel

theorem Assembled.find?_of_isToken {c : Catalog} (h : c.Assembled) {token : String}
    (htoken : Command.isToken token) : c.find? token = none := by
  cases hfind : c.find? token with
  | none => rfl
  | some op =>
      obtain ⟨hop, hname⟩ := h.consistent.find?_iff.mp hfind
      have hnot := standard_names_not_commands op (h.operators_subset op hop) token hname
      rw [htoken] at hnot
      cases hnot

end Catalog

namespace Evaluator

/-- Whether the presentation takes the token over. -/
def takesOver (e : Evaluator) (token : String) : Bool := Command.isToken token && e.claims token

/-- The tokens that the presentation takes over, in order. -/
def handed (e : Evaluator) (tokens : List String) : List String := tokens.filter e.takesOver

/-- The other tokens. -/
def kept (e : Evaluator) (tokens : List String) : List String :=
  tokens.filter fun token => !e.takesOver token

variable {e : Evaluator} {s : Stack} {tokens : List String}

theorem takesOver_iff (h : e.catalog.Assembled) {token : String} :
    e.takesOver token ↔ e.Means token (.ok .claimed) := by
  rw [takesOver, Bool.and_eq_true]
  constructor
  · rintro ⟨hform, hclaim⟩
    exact .claimed (Literal.read_of_isToken hform) (h.find?_of_isToken hform) hform hclaim
  · rintro ⟨⟩
    next hform hclaim => exact ⟨hform, hclaim⟩

/-! ## Evaluation without the tokens -/

theorem run_cons (e : Evaluator) (s : Stack) (token : String) (tokens : List String) :
    e.run s (token :: tokens) =
      e.step { stack := s } token >>= fun d => (e.run d.stack tokens).map d.andThen := by
  rw [run, List.foldlM_cons]
  simp only [foldlM_step_eq]

/-- The tokens make no difference but that they are kept for later. -/
theorem run_eq_kept (h : e.catalog.Assembled) (s : Stack) (tokens : List String) :
    e.run s tokens =
      (e.run s (e.kept tokens)).map fun d => { d with claimed := e.handed tokens } := by
  induction tokens generalizing s with
  | nil => rfl
  | cons token tokens ih =>
      rw [run_cons]
      by_cases htoken : e.takesOver token
      · have hstep : e.step { stack := s } token = .ok { stack := s, claimed := [token] } :=
          bind_eq_ok.mpr ⟨_, ((takesOver_iff h).mp htoken).meaning_eq, rfl⟩
        have hkept : e.kept (token :: tokens) = e.kept tokens := by simp [kept, htoken]
        have hhanded : e.handed (token :: tokens) = token :: e.handed tokens := by
          simp [handed, htoken]
        rw [hstep, hkept, hhanded]
        simp only [bind, Except.bind, ih]
        cases e.run s (e.kept tokens) with
        | error err => rfl
        | ok d => simp [Except.map, Draft.andThen]
      · have hkept : e.kept (token :: tokens) = token :: e.kept tokens := by simp [kept, htoken]
        have hhanded : e.handed (token :: tokens) = e.handed tokens := by simp [handed, htoken]
        rw [hkept, hhanded, run_cons]
        cases hstep : e.step { stack := s } token with
        | error err => rfl
        | ok first =>
            have hfirst : first.claimed = [] := by
              rcases step_cases hstep with ⟨hclaimed, -⟩ | ⟨next, changes, -, rfl⟩
              · exact absurd ((takesOver_iff h).mpr (means_iff.mpr hclaimed)) htoken
              · rfl
            simp only [bind, Except.bind, ih]
            cases e.run first.stack (e.kept tokens) with
            | error err => rfl
            | ok d => simp [Except.map, Draft.andThen, hfirst]

theorem claimed_of_run_kept (h : e.catalog.Assembled) {d : Draft}
    (hrun : e.run s (e.kept tokens) = .ok d) : d.claimed = [] := by
  have hnone : e.handed (e.kept tokens) = [] := by simp [handed, kept]
  rw [run_eq_kept h] at hrun
  obtain ⟨_, -, rfl⟩ := map_eq_ok.mp hrun
  exact hnone

theorem kept_of_handed_eq_nil (h : e.handed tokens = []) : e.kept tokens = tokens := by
  rw [kept, List.filter_eq_self]
  simpa [handed] using h

theorem travel?_eq_none_of_handed (h : e.handed tokens ≠ []) : e.travel? tokens = none := by
  refine travel?_eq_none fun t htokens hmeans => h ?_
  obtain ⟨-, -, hclaim⟩ := means_travel_iff.mp hmeans
  simp [htokens, handed, takesOver, hclaim]

end Evaluator

/-! ## Lines without the tokens -/

namespace Session

variable {s : Session} {line : String} {tokens : List String}

/-- What becomes of the tokens of a line that the presentation takes over. -/
structure HandsOver (s : Session) (line : String) (tokens : List String) : Prop where
  /-- They are due once the line has succeeded, in order, and behind everything else. -/
  succeeded : (s.submit line).outcome = .ok () → ∃ told, Event.commands told = [] ∧
    (s.submit line).events = told ++ (s.evaluator.handed tokens).map .command
  /-- The other tokens make up a line. -/
  rest : Token.words (" ".intercalate (s.evaluator.kept tokens)) = .ok (s.evaluator.kept tokens)
  /-- A line of the other tokens has the same effect. -/
  unnoticed : ∀ without, Token.words without = .ok (s.evaluator.kept tokens) →
    (s.evaluator.handed tokens = [] ∨ ∀ t : Travel, s.evaluator.kept tokens ≠ [t.token]) →
      (s.submit line).outcome = (s.submit without).outcome ∧
      (s.submit line).session = (s.submit without).session ∧
      ((s.submit line).outcome = .ok () → (s.submit line).events =
        (s.submit without).events ++ (s.evaluator.handed tokens).map .command)
  /-- Where there are no other tokens, nothing else happens. -/
  nothing : s.evaluator.kept tokens = [] →
    s.submit line = ⟨s, (s.evaluator.handed tokens).map .command, .ok ()⟩
  /-- A step through the history beside them does not stand alone. -/
  alone : ∀ t : Travel, s.evaluator.handed tokens ≠ [] → s.evaluator.kept tokens = [t.token] →
    (s.submit line).outcome = .error (.parse t.token .notAlone) ∧ (s.submit line).session = s

theorem commit_claimed {d : Draft} (h : d.claimed = []) (tokens : List String) :
    s.commit { d with claimed := tokens } =
      ((s.commit d).1, (s.commit d).2 ++ tokens.map .command) := by
  simp only [commit, h]
  split <;> simp

theorem commands_travel (s : Session) (t : Travel) : Event.commands (s.travel t).2 = [] := by
  simp only [travel]
  split
  · rfl
  · dsimp only
    rw [commands_announce]

section

variable (h : s.evaluator.catalog.Assembled) (hline : Token.words line = .ok tokens)

include h hline

theorem submit_of_run_kept {d : Draft}
    (hrun : s.evaluator.run s.stack (s.evaluator.kept tokens) = .ok d) :
    s.submit line =
      ⟨(s.commit d).1, (s.commit d).2 ++ (s.evaluator.handed tokens).map .command, .ok ()⟩ := by
  have hall := Evaluator.run_eq_kept h s.stack tokens
  rw [hrun] at hall
  rw [submit_of_run hline hall, commit_claimed (Evaluator.claimed_of_run_kept h hrun)]

theorem submit_of_run_kept_error {err : Error} (hhanded : s.evaluator.handed tokens ≠ [])
    (hrun : s.evaluator.run s.stack (s.evaluator.kept tokens) = .error err) :
    s.submit line = ⟨s, [.error err.message], .error err⟩ := by
  have hall := Evaluator.run_eq_kept h s.stack tokens
  rw [hrun] at hall
  exact submit_of_run_error hline (Evaluator.travel?_eq_none_of_handed hhanded) hall

theorem exists_told (hok : (s.submit line).outcome = .ok ()) :
    ∃ told, Event.commands told = [] ∧
      (s.submit line).events = told ++ (s.evaluator.handed tokens).map .command := by
  have hyields := submit_yields s line
  generalize s.submit line = sub at hyields hok
  cases hyields with
  | failed => cases hok
  | @travelled tokens' t hline' ht =>
      obtain rfl := Except.ok.inj (hline.symm.trans hline')
      have hhanded : s.evaluator.handed tokens = [] := by
        by_contra hne
        rw [Evaluator.travel?_eq_none_of_handed hne] at ht
        cases ht
      exact ⟨(s.travel t).2, commands_travel s t, by simp [hhanded]⟩
  | @evaluated tokens' d hline' ht hrun =>
      obtain rfl := Except.ok.inj (hline.symm.trans hline')
      rw [Evaluator.run_eq_kept h] at hrun
      obtain ⟨first, hkept, rfl⟩ := map_eq_ok.mp hrun
      have hclaimed := Evaluator.claimed_of_run_kept h hkept
      refine ⟨(s.commit first).2, (commands_commit s first).trans hclaimed, ?_⟩
      rw [commit_claimed hclaimed]

theorem submit_eq_without {without : String}
    (hwithout : Token.words without = .ok (s.evaluator.kept tokens))
    (halone : s.evaluator.handed tokens = [] ∨
      ∀ t : Travel, s.evaluator.kept tokens ≠ [t.token]) :
    (s.submit line).outcome = (s.submit without).outcome ∧
      (s.submit line).session = (s.submit without).session ∧
      ((s.submit line).outcome = .ok () → (s.submit line).events =
        (s.submit without).events ++ (s.evaluator.handed tokens).map .command) := by
  by_cases hhanded : s.evaluator.handed tokens = []
  · rw [Evaluator.kept_of_handed_eq_nil hhanded, ← hline] at hwithout
    have hsame : s.submit line = s.submit without := by
      rw [submit_eq, submit_eq, evaluate_eq, evaluate_eq, hwithout]
    simp [hsame, hhanded]
  · have hnone : s.evaluator.travel? (s.evaluator.kept tokens) = none :=
      Evaluator.travel?_eq_none fun t hkept _ => halone.resolve_left hhanded t hkept
    cases hrun : s.evaluator.run s.stack (s.evaluator.kept tokens) with
    | error err =>
        rw [submit_of_run_kept_error h hline hhanded hrun, submit_of_run_error hwithout hnone hrun]
        simp
    | ok d =>
        rw [submit_of_run_kept h hline hrun, submit_of_run hwithout hrun]
        simp

theorem submit_of_kept_eq_nil (hkept : s.evaluator.kept tokens = []) :
    s.submit line = ⟨s, (s.evaluator.handed tokens).map .command, .ok ()⟩ := by
  have hrun : s.evaluator.run s.stack (s.evaluator.kept tokens) = .ok { stack := s.stack } := by
    rw [hkept]
    rfl
  rw [submit_of_run_kept h hline hrun, commit_of_unmoved rfl]
  rfl

theorem submit_of_kept_eq_travel {t : Travel} (hhanded : s.evaluator.handed tokens ≠ [])
    (hkept : s.evaluator.kept tokens = [t.token]) :
    (s.submit line).outcome = .error (.parse t.token .notAlone) ∧ (s.submit line).session = s := by
  have hform : Command.isToken t.token := by
    cases t <;> decide +kernel
  have hclaim : s.evaluator.claims t.token = false := by
    have hmem : t.token ∈ s.evaluator.kept tokens := hkept ▸ List.mem_singleton_self _
    simpa [Evaluator.takesOver, hform] using List.of_mem_filter hmem
  have hmeans : s.evaluator.Means t.token (.ok (.command (.travel t))) :=
    Evaluator.means_travel_iff.mpr ⟨rfl, h.find?_of_isToken hform, hclaim⟩
  have hrun := Evaluator.run_travel hmeans s.stack
  rw [← hkept] at hrun
  rw [submit_of_run_kept_error h hline hhanded hrun]
  exact ⟨rfl, rfl⟩

end

/-- The tokens that the presentation takes over are due once their line has succeeded, in order and
behind all other events, and never where it fails. The line has the outcome and leaves the session
that it would without these tokens, except that a step through the history beside them fails. -/
theorem claimed_tokens_follow_commit (h : s.evaluator.catalog.Assembled) (line : String) :
    (∀ err, (s.submit line).outcome = .error err → Event.commands (s.submit line).events = []) ∧
      ((s.submit line).outcome = .ok () → ∃ tokens, Token.words line = .ok tokens) ∧
      ∀ tokens, Token.words line = .ok tokens → s.HandsOver line tokens := by
  refine ⟨fun err herror => ?_, fun hok => ?_, fun tokens hline => ?_⟩
  · rw [submit_of_evaluate_eq_error (outcome_eq_error.mp herror)]
    rfl
  · have hyields := submit_yields s line
    generalize s.submit line = sub at hyields hok
    cases hyields with
    | failed => cases hok
    | travelled hline => exact ⟨_, hline⟩
    | evaluated hline => exact ⟨_, hline⟩
  · constructor
    case succeeded => exact exists_told h hline
    case rest =>
      refine Token.words_intercalate fun token htoken => ?_
      exact (Token.words_eq_ok.mp hline).words_eq token (List.mem_of_mem_filter htoken)
    case unnoticed => exact fun without => submit_eq_without h hline
    case nothing => exact submit_of_kept_eq_nil h hline
    case alone => exact fun t => submit_of_kept_eq_travel h hline

/-- Two tokens that are taken over among numbers. -/
theorem claimed_tokens_follow_commit_among_numbers :
    let s := start (Catalog.standard.toOption.getD .empty) {} (· = "\\help")
    let line := "1 \\help 2 \\help"
    s.evaluator.catalog.Assembled ∧ (s.submit line).outcome = .ok () ∧
      (s.submit line).session = (s.submit "1 2").session ∧
      (s.submit line).events =
        (s.submit "1 2").events ++ [.command "\\help", .command "\\help"] := by
  intro s line
  have hassembled : s.evaluator.catalog.Assembled :=
    Catalog.assembled_of_ofLibraries (fun _ hlib => hlib) Catalog.standard_eq
  have hline : Token.words line = .ok ["1", "\\help", "2", "\\help"] := by decide +kernel
  have hkept : s.evaluator.kept ["1", "\\help", "2", "\\help"] = ["1", "2"] := by decide +kernel
  have hhanded : s.evaluator.handed ["1", "\\help", "2", "\\help"] = ["\\help", "\\help"] := by
    decide +kernel
  have hok : (s.submit line).outcome = .ok () := by decide +kernel
  have hhands := (claimed_tokens_follow_commit hassembled line).2.2 _ hline
  obtain ⟨-, hsession, hevents⟩ := hhands.unnoticed "1 2" (by rw [hkept]; decide +kernel)
    (.inr fun t => by simp [hkept])
  rw [hhanded] at hevents
  exact ⟨hassembled, hok, hsession, hevents hok⟩

end Session

end ReversePolish
