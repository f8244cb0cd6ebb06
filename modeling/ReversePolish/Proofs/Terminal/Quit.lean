import ReversePolish.Proofs.Session.Claimed
import ReversePolish.Proofs.Session.Mirror
import ReversePolish.Terminal.Launch

/-! # Leaving the program

A line of the input by which the user leaves is the last that is submitted, once it has taken
effect. The lines of the options are submitted to the last of them, whoever leaves. -/

namespace ReversePolish

open Outcome

/-! ## Lines by which the user leaves -/

namespace Session

variable {s : Session} {line : String}

/-- The presentation is handed the tokens that it takes over if the line takes effect, and nothing
otherwise. -/
theorem mem_commands_submit (h : s.evaluator.catalog.Assembled) {token : String} :
    token ∈ Event.commands (s.submit line).events ↔
      (s.submit line).outcome = .ok () ∧
        ∃ tokens, Token.words line = .ok tokens ∧ token ∈ s.evaluator.handed tokens := by
  have hyields := submit_yields s line
  generalize s.submit line = sub at hyields
  cases hyields with
  | failed => simp [Event.commands, Event.command?]
  | @travelled tokens t hline ht =>
      have hhanded : s.evaluator.handed tokens = [] := by
        by_contra hne
        rw [Evaluator.travel?_eq_none_of_handed hne] at ht
        cases ht
      simp [commands_travel, hline, hhanded]
  | @evaluated tokens d hline ht hrun =>
      rw [Evaluator.run_eq_kept h] at hrun
      obtain ⟨_, -, rfl⟩ := map_eq_ok.mp hrun
      simp [commands_commit, hline]

/-- The line takes effect and has a token by which the user leaves. -/
def Leaves (s : Session) (line : String) : Prop :=
  (s.submit line).outcome = .ok () ∧
    ∃ tokens, Token.words line = .ok tokens ∧ ("\\quit" ∈ tokens ∨ "\\q" ∈ tokens)

/-- No line leaves, of lines that are submitted in turn. -/
def Stays (s : Session) : List String → Prop
  | [] => True
  | line :: lines => ¬ s.Leaves line ∧ (s.submit line).session.Stays lines

end Session

/-! ## What the terminal is asked for -/

namespace Terminal

/-- Whether the user leaves by the token. -/
def isQuit (token : String) : Bool := token = "\\quit" || token = "\\q"

theorem quit_run (t : Terminal) (c : Catalog) (token : String) :
    (t.run c token).1.quit = (t.quit || isQuit token) := by
  simp only [run]
  split <;> simp_all [isQuit]

theorem quit_receive (t : Terminal) (c : Catalog) (e : Event) :
    (t.receive c e).1.quit = (t.quit || (Event.commands [e]).any isQuit) := by
  cases e with
  | command token => simpa [receive, Event.commands, Event.command?] using quit_run t c token
  | _ => simp [receive, Event.commands, Event.command?]

theorem quit_receiveAll (t : Terminal) (c : Catalog) (events : List Event) :
    (t.receiveAll c events).1.quit = (t.quit || (Event.commands events).any isQuit) := by
  induction events generalizing t with
  | nil => simp [receiveAll, Event.commands]
  | cons e events ih =>
      rw [receiveAll, ih, quit_receive, Bool.or_assoc, ← List.any_append, ← Event.commands_append]
      rfl

theorem receiveAll_append (t : Terminal) (c : Catalog) (events more : List Event) :
    t.receiveAll c (events ++ more) =
      (((t.receiveAll c events).1.receiveAll c more).1,
        (t.receiveAll c events).2 ++ ((t.receiveAll c events).1.receiveAll c more).2) := by
  induction events generalizing t with
  | nil => rfl
  | cons e events ih => simp [receiveAll, ih]

/-- The tokens by which the user leaves are among those that the terminal takes over. -/
theorem exists_isQuit_handed {e : Evaluator} (h : e.claims = claims) (tokens : List String) :
    (∃ token ∈ e.handed tokens, isQuit token) ↔ "\\quit" ∈ tokens ∨ "\\q" ∈ tokens := by
  have hquit : e.takesOver "\\quit" ∧ e.takesOver "\\q" := by
    simp only [Evaluator.takesOver, h]
    decide +kernel
  simp only [Evaluator.handed, List.mem_filter, isQuit, Bool.or_eq_true, decide_eq_true_eq]
  constructor
  · rintro ⟨token, ⟨hmem, -⟩, rfl | rfl⟩
    · exact .inl hmem
    · exact .inr hmem
  · rintro (hmem | hmem)
    · exact ⟨_, ⟨hmem, hquit.1⟩, .inl rfl⟩
    · exact ⟨_, ⟨hmem, hquit.2⟩, .inr rfl⟩

end Terminal

namespace Program

/-- The operators are standard ones and the tokens that are taken over those of the terminal. -/
structure Ready (p : Program) : Prop where
  assembled : p.session.evaluator.catalog.Assembled
  claims : p.session.evaluator.claims = Terminal.claims

theorem ready_start {catalog : Catalog} (h : Catalog.standard = .ok catalog)
    (settings : Settings) : (start catalog settings).Ready :=
  ⟨Catalog.assembled_of_ofLibraries (fun _ hlib => hlib) h, rfl⟩

variable {p : Program} {line : String} {lines : List String}

theorem evaluator_enter (p : Program) (line : String) :
    (p.enter line).1.session.evaluator = p.session.evaluator :=
  Session.evaluator_submit p.session line

theorem Ready.enter (h : p.Ready) (line : String) : (p.enter line).1.Ready :=
  ⟨evaluator_enter p line ▸ h.assembled, evaluator_enter p line ▸ h.claims⟩

/-- The terminal is asked to leave by just the lines that leave. -/
theorem quit_enter (h : p.Ready) (hquit : p.terminal.quit = false) (line : String) :
    (p.enter line).1.terminal.quit ↔ p.session.Leaves line := by
  have hasked : (p.enter line).1.terminal.quit =
      (Event.commands (p.session.submit line).events).any Terminal.isQuit := by
    rw [Program.enter, Terminal.quit_receiveAll, hquit, Bool.false_or]
  rw [hasked, List.any_eq_true]
  simp only [Session.mem_commands_submit h.assembled, Session.Leaves,
    ← Terminal.exists_isQuit_handed h.claims]
  constructor
  · rintro ⟨token, ⟨hok, tokens, hline, hmem⟩, hasks⟩
    exact ⟨hok, tokens, hline, token, hmem, hasks⟩
  · rintro ⟨hok, tokens, hline, token, hmem, hasks⟩
    exact ⟨token, ⟨hok, tokens, hline, hmem⟩, hasks⟩

/-! ## The lines of the options -/

/-- Lines from the options are submitted to the last of them. -/
theorem enterAll_eq (p : Program) (lines : List String) :
    (p.enterAll lines).1.session = (p.session.submitAll lines).1 ∧
      (p.enterAll lines).2.1 = (p.terminal.receiveAll p.session.evaluator.catalog
        (p.session.submitAll lines).2).2 := by
  induction lines generalizing p with
  | nil => exact ⟨rfl, rfl⟩
  | cons line lines ih =>
      obtain ⟨hsession, houtputs⟩ := ih (p.enter line).1
      refine ⟨hsession, ?_⟩
      rw [evaluator_enter] at houtputs
      rw [Session.submitAll, Terminal.receiveAll_append]
      exact congrArg ((p.enter line).2.1 ++ ·) houtputs

/-- Behind lines that do not leave there is still someone to read for. -/
theorem Ready.enterAll (h : p.Ready) (hquit : p.terminal.quit = false)
    (hstays : p.session.Stays lines) :
    (p.enterAll lines).1.Ready ∧ (p.enterAll lines).1.terminal.quit = false := by
  induction lines generalizing p with
  | nil => exact ⟨h, hquit⟩
  | cons line lines ih =>
      obtain ⟨hline, hlines⟩ := hstays
      have hnot : ¬ (p.enter line).1.terminal.quit := mt (quit_enter h hquit line).mp hline
      exact ih (h.enter line) (eq_false_of_ne_true hnot) hlines

/-! ## The lines of the input -/

/-- What is printed if all of the lines are submitted as lines of the input. -/
def showing (p : Program) : List String → List Output
  | [] => []
  | line :: lines => (p.enterShowing line).2 ++ (p.enterShowing line).1.showing lines

theorem showing_append (p : Program) (lines more : List String) :
    p.showing (lines ++ more) = p.showing lines ++ (p.enterAll lines).1.showing more := by
  induction lines generalizing p with
  | nil => rfl
  | cons line lines ih =>
      rw [List.cons_append, showing, showing, ih, List.append_assoc]
      rfl

variable {input : List (Except String String)}

theorem interact_cons (p : Program) (line : String) (input : List (Except String String)) :
    p.interact (.ok line :: input) =
      if (p.enter line).1.terminal.quit then ((p.enterShowing line).2, .ok ())
      else ((p.enterShowing line).2 ++ ((p.enter line).1.interact input).1,
        ((p.enter line).1.interact input).2) := rfl

/-- Lines that do not leave are followed by what comes of the rest of the input. -/
theorem interact_append (h : p.Ready) (hquit : p.terminal.quit = false)
    (hstays : p.session.Stays lines) (input : List (Except String String)) :
    p.interact (lines.map .ok ++ input) =
      (p.showing lines ++ ((p.enterAll lines).1.interact input).1,
        ((p.enterAll lines).1.interact input).2) := by
  induction lines generalizing p with
  | nil => rfl
  | cons line lines ih =>
      obtain ⟨hline, hlines⟩ := hstays
      have hnot : ¬ (p.enter line).1.terminal.quit := mt (quit_enter h hquit line).mp hline
      rw [List.map_cons, List.cons_append, interact_cons, if_neg hnot,
        ih (h.enter line) (eq_false_of_ne_true hnot) hlines, showing, List.append_assoc]
      rfl

theorem interact_of_stays (h : p.Ready) (hquit : p.terminal.quit = false)
    (hstays : p.session.Stays lines) : p.interact (lines.map .ok) = (p.showing lines, .ok ()) := by
  have hrest := interact_append h hquit hstays []
  rwa [List.append_nil, interact, List.append_nil] at hrest

/-- A line that cannot be read is the last that is asked for. -/
theorem interact_of_unreadable (h : p.Ready) (hquit : p.terminal.quit = false)
    (hstays : p.session.Stays lines) (reason : String) (after : List (Except String String)) :
    p.interact (lines.map .ok ++ .error reason :: after) =
      (p.showing lines, .error (inputFault reason)) := by
  have hrest := interact_append h hquit hstays (.error reason :: after)
  rwa [interact, List.append_nil] at hrest

/-- What follows the first line that leaves makes no difference. -/
theorem interact_of_leaves (h : p.Ready) (hquit : p.terminal.quit = false)
    (hstays : p.session.Stays lines) (hleaves : (p.session.submitAll lines).1.Leaves line)
    (after : List (Except String String)) :
    p.interact (lines.map .ok ++ .ok line :: after) = (p.showing (lines ++ [line]), .ok ()) := by
  obtain ⟨hready, hstill⟩ := h.enterAll hquit hstays
  have hasked : ((p.enterAll lines).1.enter line).1.terminal.quit := by
    rw [quit_enter hready hstill, (p.enterAll_eq lines).1]
    exact hleaves
  rw [interact_append h hquit hstays, interact_cons, if_pos hasked, showing_append]
  simp [showing]

end Program

namespace Launch

variable {readFile : String → Except Settings.FileFault String}
  {parse : String → Except String Settings} {o : Terminal.Options} {settings : Settings}
  {catalog : Catalog}

/-- Options that ask for a calculation start the program on the input, or on the lines among
them. -/
theorem start_eq (hoperators : o.listOperators = false) (hunits : o.listUnits = false)
    (hsettings : Launch.settings readFile parse o.settingsFile = .ok settings)
    (hcatalog : Catalog.standard = .ok catalog) :
    let p := Program.start catalog settings
    start readFile parse o =
      if o.lines = [] then interactive p
      else finish ((p.enterAll o.lines).2.1 ++ (p.enterAll o.lines).1.stackOutputs)
        (if (p.enterAll o.lines).2.2 then 0 else 1) := by
  simp only [start, ofOptions, hsettings, hcatalog, Except.mapError, bind, Except.bind, hoperators,
    hunits, Bool.false_eq_true, if_false, List.isEmpty_iff]
  by_cases hlines : o.lines = []
  · simp only [if_pos hlines]
  · simp only [if_neg hlines]

/-- A line of the input by which the user leaves, once it has taken effect, is the last that is
submitted, and before it all lines are; but for that, the program ends with the input, or with an
error at a line that cannot be read. The lines of the options are all submitted, also those behind a
line by which the user leaves. -/
theorem leaving_ends_input_only (hoperators : o.listOperators = false)
    (hunits : o.listUnits = false)
    (hsettings : Launch.settings readFile parse o.settingsFile = .ok settings)
    (hcatalog : Catalog.standard = .ok catalog) :
    let p := Program.start catalog settings
    let run (input : List (Except String String)) := (start readFile parse o).play input
    (o.lines = [] →
      (∀ lines, p.session.Stays lines →
        run (lines.map .ok) = (p.showing lines, 0) ∧
        ∀ reason after, run (lines.map .ok ++ .error reason :: after) =
          (p.showing lines ++ [.err (Program.inputFault reason)], 1)) ∧
      ∀ before line after, p.session.Stays before →
        (p.session.submitAll before).1.Leaves line →
        run (before.map .ok ++ .ok line :: after) = (p.showing (before ++ [line]), 0)) ∧
    (o.lines ≠ [] → ∀ input,
      (run input).1 =
        (p.terminal.receiveAll catalog (p.session.submitAll o.lines).2).2 ++
          ({ items := (p.session.submitAll o.lines).1.view } : Terminal).stackLines.map .out) := by
  intro p run
  have hready : p.Ready := Program.ready_start hcatalog settings
  have hlaunch : start readFile parse o = _ := start_eq hoperators hunits hsettings hcatalog
  refine ⟨fun hlines => ?_, fun hlines input => ?_⟩
  · rw [if_pos hlines] at hlaunch
    simp only [run, hlaunch, play]
    refine ⟨fun lines hstays => ⟨?_, fun reason after => ?_⟩,
      fun before line after hstays hleaves => ?_⟩
    · rw [Program.interact_of_stays hready rfl hstays]
    · rw [Program.interact_of_unreadable hready rfl hstays]
    · rw [Program.interact_of_leaves hready rfl hstays hleaves]
  · rw [if_neg hlines] at hlaunch
    obtain ⟨hsession, houtputs⟩ := Program.enterAll_eq p o.lines
    have hstart : p.InStep := rfl
    have hitems : (p.enterAll o.lines).1.terminal.items = (p.session.submitAll o.lines).1.view :=
      hsession ▸ Program.inStep_enterAll hstart o.lines
    simp only [run, hlaunch, play]
    rw [houtputs, Program.stackOutputs, Terminal.stackLines, Terminal.stackLines, hitems]
    rfl

/-- The second line of the input ends it, the first line of the options does not. -/
theorem leaving_ends_input_only_at_second_line :
    let catalog := Catalog.standard.toOption.getD .empty
    let p := Program.start catalog {}
    let run (lines : List String) := (start (fun _ => .ok "") (fun _ => .ok {}) { lines }).play
    Catalog.standard = .ok catalog ∧ p.session.Stays ["1"] ∧
      (p.session.submitAll ["1"]).1.Leaves "2 \\q" ∧
      (∀ after, run [] (.ok "1" :: .ok "2 \\q" :: after) = ([.out "1: 1"], 0)) ∧
      ∀ input, (run ["\\q", "2"] input).1 = [.out "1: 2"] := by
  intro catalog p run
  have hstays : p.session.Stays ["1"] := by
    have hline : Token.words "1" = .ok ["1"] := by decide +kernel
    refine ⟨?_, trivial⟩
    rintro ⟨-, tokens, htokens, hquit⟩
    obtain rfl := Except.ok.inj (hline.symm.trans htokens)
    exact absurd hquit (by decide)
  have hleaves : (p.session.submitAll ["1"]).1.Leaves "2 \\q" :=
    ⟨by decide +kernel, ["2", "\\q"], by decide +kernel, .inr (by decide)⟩
  have hsettings : settings (fun _ => .ok "") (fun _ => .ok {}) none = .ok {} := rfl
  have hends := ((leaving_ends_input_only (o := {}) rfl rfl hsettings Catalog.standard_eq).1 rfl).2
    ["1"] "2 \\q"
  have hall := (leaving_ends_input_only (o := { lines := ["\\q", "2"] }) rfl rfl hsettings
    Catalog.standard_eq).2 (by decide)
  refine ⟨Catalog.standard_eq, hstays, hleaves, fun after => ?_, fun input => ?_⟩
  · exact (hends after hstays hleaves).trans (by decide +kernel)
  · exact (hall input).trans (by decide +kernel)

/-- A line by which the user leaves is submitted before another one of the options. -/
theorem arguments_go_on_after_quit :
    let s := Session.start (Catalog.standard.toOption.getD .empty) {} Terminal.claims
    let run (lines : List String) :=
      (start (fun _ => .ok "") (fun _ => .ok {}) { lines }).play []
    s.Leaves "\\quit" ∧ run ["\\quit"] = ([], 0) ∧
      run ["\\quit", "2"] = ([.out "1: 2"], 0) := by
  refine ⟨⟨by decide +kernel, ["\\quit"], by decide +kernel, .inl (by decide)⟩, ?_, ?_⟩
  · decide +kernel
  · decide +kernel

end Launch

end ReversePolish
