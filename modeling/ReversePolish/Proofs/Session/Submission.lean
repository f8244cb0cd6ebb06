import ReversePolish.Proofs.Action
import ReversePolish.Proofs.Session.Draft
import ReversePolish.Session.Basic

/-! # What comes of a line

A line fails, is a step through the history, or is evaluated on a draft that is then committed. All
that can fail comes before the session is changed or the presentation is told anything. -/

namespace ReversePolish

open ReversePolish.Action Outcome

/-- The texts of the tokens of a line. -/
def Token.words (line : String) : Except Error (List String) :=
  (Token.scanLine line).map (·.map Token.text)

namespace SessionM

theorem succeeds_tell (events : List Event) : (tell events).Succeeds := succeeds_modify _

theorem succeeds_enact (f : Session → Session × List Event) : (enact f).Succeeds :=
  succeeds_get.bind fun _ => (succeeds_modify _).bind fun _ => succeeds_tell _

/-- A line that cannot be evaluated leaves the session as it was, and nothing is told by then. -/
theorem atomic_evaluate (line : String) : (evaluate line).Atomic := by
  refine (looks_liftExcept _).bind_atomic fun tokens => looks_get.bind_atomic fun c => ?_
  dsimp only
  split
  · exact (succeeds_enact _).atomic
  · exact (looks_liftExcept _).bind_atomic fun draft => (succeeds_enact _).atomic

theorem submit_eq_ok {line : String} {c left : Course} :
    submit line c = .ok () left ↔ evaluate line c = .ok () left := by
  rw [submit, tryCatch_eq_ok]
  refine or_iff_left ?_
  rintro ⟨e, u, -, htold⟩
  cases htold

/-- The error is told behind what was told before, and then it is on. -/
theorem submit_eq_error {line : String} {c left : Course} {e : Error} :
    submit line c = .error e left ↔
      evaluate line c = .error e c ∧ left = { c with events := c.events ++ [.error e.message] } := by
  rw [submit, tryCatch_eq_error]
  constructor
  · rintro ⟨e', u, heval, htold⟩
    obtain rfl := atomic_evaluate line c e' u heval
    cases htold
    exact ⟨heval, rfl⟩
  · rintro ⟨heval, rfl⟩
    exact ⟨e, c, heval, rfl⟩

end SessionM

namespace Session

/-- What the evaluation of a line comes to, for those who give up the session with an error. -/
def evaluate (s : Session) (line : String) : Except Error (Session × List Event) :=
  ((SessionM.evaluate line).attempt { session := s }).map fun (c, _) => (c.session, c.events)

/-- The three ways in which the submission of a line can come out. -/
inductive Yields (s : Session) (line : String) : Submission → Prop where
  | failed {e : Error} (h : s.evaluate line = .error e) :
      Yields s line ⟨s, [.error e.message], .error e⟩
  | travelled {tokens : List String} {t : Travel} (hline : Token.words line = .ok tokens)
      (ht : s.evaluator.travel? tokens = some t) :
      Yields s line ⟨(s.travel t).1, (s.travel t).2, .ok ()⟩
  | evaluated {tokens : List String} {d : Draft} (hline : Token.words line = .ok tokens)
      (ht : s.evaluator.travel? tokens = none) (hrun : s.evaluator.run s.stack tokens = .ok d) :
      Yields s line ⟨(s.commit d).1, (s.commit d).2, .ok ()⟩

theorem evaluate_eq (s : Session) (line : String) :
    s.evaluate line = Token.words line >>= fun tokens =>
      match s.evaluator.travel? tokens with
      | some t => .ok (s.travel t)
      | none => (s.evaluator.run s.stack tokens).map s.commit := by
  simp only [evaluate, SessionM.evaluate, Token.words, attempt_liftExcept_bind, attempt_get_bind]
  cases Token.scanLine line with
  | error e => rfl
  | ok tokens =>
      simp only [bind, Except.bind, Except.map]
      cases s.evaluator.travel? (tokens.map Token.text) with
      | some t => rfl
      | none => cases s.evaluator.run s.stack (tokens.map Token.text) <;> rfl

/-- What comes of a line is told behind what was told before. -/
theorem attempt_evaluate (line : String) (c : Course) :
    (SessionM.evaluate line).attempt c =
      (c.session.evaluate line).map fun after => (⟨after.1, c.events ++ after.2⟩, ()) := by
  simp only [evaluate_eq, SessionM.evaluate, Token.words, attempt_liftExcept_bind, attempt_get_bind]
  cases Token.scanLine line with
  | error e => rfl
  | ok tokens =>
      simp only [bind, Except.bind, Except.map]
      cases c.session.evaluator.travel? (tokens.map Token.text) with
      | some t => rfl
      | none => cases c.session.evaluator.run c.session.stack (tokens.map Token.text) <;> rfl

theorem submit_eq (s : Session) (line : String) :
    s.submit line = match s.evaluate line with
      | .ok (after, events) => ⟨after, events, .ok ()⟩
      | .error e => ⟨s, [.error e.message], .error e⟩ := by
  unfold submit evaluate outcome attempt
  cases h : SessionM.submit line { session := s } with
  | ok _ after => rw [SessionM.submit_eq_ok.mp h]; rfl
  | error e left =>
      obtain ⟨heval, rfl⟩ := SessionM.submit_eq_error.mp h
      rw [heval]
      rfl

theorem submit_yields (s : Session) (line : String) : s.Yields line (s.submit line) := by
  rw [submit_eq]
  cases h : s.evaluate line with
  | error e => exact .failed h
  | ok after =>
      obtain ⟨tokens, hline, h⟩ := bind_eq_ok.mp (evaluate_eq s line ▸ h)
      cases ht : s.evaluator.travel? tokens with
      | some t =>
          simp only [ht, Except.ok.injEq] at h
          subst h
          exact .travelled hline ht
      | none =>
          simp only [ht] at h
          obtain ⟨d, hrun, rfl⟩ := map_eq_ok.mp h
          exact .evaluated hline ht hrun

/-! ## What no line changes -/

theorem evaluator_travel (s : Session) (t : Travel) : (s.travel t).1.evaluator = s.evaluator := by
  simp only [travel]
  split <;> rfl

theorem settings_travel (s : Session) (t : Travel) : (s.travel t).1.settings = s.settings := by
  simp only [travel]
  split <;> rfl

theorem evaluator_commit (s : Session) (d : Draft) : (s.commit d).1.evaluator = s.evaluator := by
  simp only [commit]
  split <;> rfl

theorem settings_commit (s : Session) (d : Draft) : (s.commit d).1.settings = s.settings := by
  simp only [commit]
  split <;> rfl

theorem Yields.evaluator_eq {s : Session} {line : String} {sub : Submission}
    (h : s.Yields line sub) : sub.session.evaluator = s.evaluator := by
  cases h with
  | failed _ => rfl
  | travelled _ _ => exact evaluator_travel s _
  | evaluated _ _ _ => exact evaluator_commit s _

theorem Yields.settings_eq {s : Session} {line : String} {sub : Submission}
    (h : s.Yields line sub) : sub.session.settings = s.settings := by
  cases h with
  | failed _ => rfl
  | travelled _ _ => exact settings_travel s _
  | evaluated _ _ _ => exact settings_commit s _

@[simp]
theorem evaluator_submit (s : Session) (line : String) :
    (s.submit line).session.evaluator = s.evaluator :=
  (submit_yields s line).evaluator_eq

@[simp]
theorem settings_submit (s : Session) (line : String) :
    (s.submit line).session.settings = s.settings :=
  (submit_yields s line).settings_eq

/-! ## Runs -/

/-- The session after lines in turn, and the events of all of them. -/
def submitAll (s : Session) : List String → Session × List Event
  | [] => (s, [])
  | line :: lines =>
      let first := s.submit line
      let rest := first.session.submitAll lines
      (rest.1, first.events ++ rest.2)

theorem submitAll_append (s : Session) (lines more : List String) :
    s.submitAll (lines ++ more) =
      (((s.submitAll lines).1.submitAll more).1,
        (s.submitAll lines).2 ++ ((s.submitAll lines).1.submitAll more).2) := by
  induction lines generalizing s with
  | nil => rfl
  | cons line lines ih => simp [submitAll, ih]

/-- What the given lines preserve holds after them. -/
theorem submitAll_preserves_of_mem {P : Session → Prop} {lines : List String}
    (hstep : ∀ s, ∀ line ∈ lines, P s → P (s.submit line).session) {s : Session} (h : P s) :
    P (s.submitAll lines).1 := by
  induction lines generalizing s with
  | nil => exact h
  | cons line lines ih =>
      refine ih (fun s next hnext => hstep s next (List.mem_cons_of_mem line hnext)) ?_
      exact hstep s line List.mem_cons_self h

/-- What every line preserves holds after any number of lines. -/
theorem submitAll_preserves {P : Session → Prop}
    (hstep : ∀ s line, P s → P (s.submit line).session) {s : Session} (h : P s)
    (lines : List String) : P (s.submitAll lines).1 :=
  submitAll_preserves_of_mem (fun s line _ => hstep s line) h

@[simp]
theorem evaluator_submitAll (s : Session) (lines : List String) :
    (s.submitAll lines).1.evaluator = s.evaluator :=
  submitAll_preserves (P := fun after => after.evaluator = s.evaluator)
    (fun after line h => (evaluator_submit after line).trans h) rfl lines

@[simp]
theorem settings_submitAll (s : Session) (lines : List String) :
    (s.submitAll lines).1.settings = s.settings :=
  submitAll_preserves (P := fun after => after.settings = s.settings)
    (fun after line h => (settings_submit after line).trans h) rfl lines

end Session

end ReversePolish
