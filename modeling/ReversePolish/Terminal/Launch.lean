import ReversePolish.Catalog.Standard
import ReversePolish.Settings.Loading
import ReversePolish.Terminal.Basic

/-! # The program behind the terminal

What the user asks for comes as options, and the settings from a file whose notation is for others
to know. -/

namespace ReversePolish

/-- What the command line asks for. -/
structure Terminal.Options where
  /-- Lines to evaluate in the place of the input. -/
  lines : List String := []
  /-- The file of settings. -/
  settingsFile : Option String := none
  listOperators : Bool := false
  listUnits : Bool := false
  deriving DecidableEq, Repr

/-- A session and the terminal in front of it. -/
structure Program where
  session : Session
  terminal : Terminal := {}

namespace Program

def start (catalog : Catalog) (settings : Settings) : Program where
  session := Session.start catalog settings Terminal.claims

/-- Submits a line: the program then, what it prints, and whether the line succeeded. -/
def enter (p : Program) (line : String) : Program × List Output × Bool :=
  let submission := p.session.submit line
  let (terminal, outputs) := p.terminal.receiveAll p.session.evaluator.catalog submission.events
  (⟨submission.session, terminal⟩, outputs, submission.outcome.isOk)

def stackOutputs (p : Program) : List Output := p.terminal.stackLines.map .out

/-- Submits a line of the input. Unless the user leaves, the stack follows. -/
def enterShowing (p : Program) (line : String) : Program × List Output :=
  let (p, outputs, _) := p.enter line
  (p, if p.terminal.quit then outputs else outputs ++ p.stackOutputs)

/-- What is said of an input that cannot be read on. -/
def inputFault (reason : String) : String := s!"error reading stdin: {reason}"

/-- Submits the lines of the input until the user leaves or a line cannot be read, which ends the
program with an error. -/
def interact (p : Program) : List (Except String String) → List Output × Except String Unit
  | [] => ([], .ok ())
  | .error reason :: _ => ([], .error (inputFault reason))
  | .ok line :: input =>
    let (p, outputs) := p.enterShowing line
    if p.terminal.quit then (outputs, .ok ())
    else
      let (rest, result) := p.interact input
      (outputs ++ rest, result)

/-- Submits lines from the command line: the program then, what it prints, and whether all lines
succeeded. -/
def enterAll (p : Program) : List String → Program × List Output × Bool
  | [] => (p, [], true)
  | line :: lines =>
    let (p, first, ok) := p.enter line
    let (p, rest, allOk) := p.enterAll lines
    (p, first ++ rest, ok && allOk)

end Program

/-- What the program does when it starts. -/
inductive Launch where
  /-- Everything is said already. -/
  | finish (outputs : List Output) (exitCode : Nat)
  /-- Lines are to be read. -/
  | interactive (p : Program)

namespace Launch

variable (readFile : String → Except Settings.FileFault String)
  (parse : String → Except String Settings)

/-- The settings in a file, and without a file the default ones. -/
def settings (path : Option String) : Except String Settings :=
  match path with
  | none => .ok {}
  | some path => (Settings.ofFile readFile parse path).mapError (·.message path)

/-- Carries out what the options ask for. -/
def ofOptions (o : Terminal.Options) : Except String Launch := do
  let settings ← settings readFile parse o.settingsFile
  let catalog ← Catalog.standard.mapError Error.message
  if o.listOperators then .ok (.finish ((Terminal.operatorLines catalog).map .out) 0)
  else if o.listUnits then .ok (.finish (Terminal.unitLines.map .out) 0)
  else
    let p := Program.start catalog settings
    if o.lines.isEmpty then .ok (.interactive p)
    else
      let (p, outputs, ok) := p.enterAll o.lines
      .ok (.finish (outputs ++ p.stackOutputs) (if ok then 0 else 1))

/-- Carries out what the options ask for, and ends with what is in the way of that. -/
def start (o : Terminal.Options) : Launch :=
  match ofOptions readFile parse o with
  | .ok launch => launch
  | .error text => .finish [.err text] 1

/-- Everything the program prints on the given input, and its exit code. -/
def play (input : List (Except String String)) : Launch → List Output × Nat
  | finish outputs exitCode => (outputs, exitCode)
  | interactive p =>
    match p.interact input with
    | (outputs, .ok _) => (outputs, 0)
    | (outputs, .error text) => (outputs ++ [.err text], 1)

end Launch

end ReversePolish
