import ReversePolish.History
import ReversePolish.Session.Evaluator

/-! # Sessions

A line that is submitted takes effect as a whole or not at all. The presentation is told by events
what happened. -/

namespace ReversePolish

/-- What the presentation is told. -/
inductive Event where
  | info (text : String)
  | error (text : String)
  /-- A token that the presentation took over is due. Whether it was handled then is answered to the
  log alone. -/
  | command (token : String)
  | stack (change : Change ItemView)

/-- The state between two lines. -/
structure Session where
  evaluator : Evaluator
  settings : Settings
  stack : Stack
  history : History
  /-- What readers see of the stack. -/
  published : Snapshot

/-- What comes of a line. -/
structure Submission where
  session : Session
  events : List Event
  outcome : Except Error Unit

namespace Session

/-- A session on an empty stack. -/
def start (catalog : Catalog) (settings : Settings) (claims : String → Bool) : Session where
  evaluator := { catalog, limits := settings.limits, style := settings.style, claims }
  settings
  stack := Stack.empty settings.maxDepth
  history := { limit := settings.historyLimit }
  published := {}

/-- The stack as the presentation shows it. -/
def view (s : Session) : List ItemView := s.stack.items.map (Item.view s.settings.style)

/-- The events of changes that led to the given items. If the whole stack was replaced on the way,
that is all there is to tell. -/
def announce (style : Style) (changes : List (Change Item)) (items : List Item) : List Event :=
  if changes.any Change.isReplace then [.stack (.replace (items.map (Item.view style)))]
  else changes.map fun c => .stack (c.map (Item.view style))

/-- Makes a draft the stack of the session; one without changes leaves no trace. -/
def commit (s : Session) (d : Draft) : Session × List Event :=
  let commands := d.claimed.map Event.command
  if d.changes.isEmpty then (s, commands)
  else
    ({ s with
        stack := d.stack
        history := s.history.record s.stack.toSnapshot
        published := d.stack.toSnapshot },
      announce s.settings.style d.changes d.stack.items ++ commands)

/-- The version to which a step through the history leads, and the history then. -/
def destination? (s : Session) : Travel → Option (Snapshot × History)
  | .undo => s.history.undo? s.stack.toSnapshot
  | .redo => s.history.redo? s.stack.toSnapshot

def nothingTo : Travel → String
  | .undo => "nothing to undo"
  | .redo => "nothing to redo"

/-- Takes a step through the history, if there is one. -/
def travel (s : Session) (t : Travel) : Session × List Event :=
  match s.destination? t with
  | none => (s, [.info (nothingTo t)])
  | some (old, history) =>
    let (stack, change) := s.stack.restore old
    ({ s with stack, history, published := stack.toSnapshot },
      announce s.settings.style [change] stack.items)

end Session

/-- A session in the course of a line, with what the presentation has been told by then. -/
structure Course where
  session : Session
  events : List Event := []

/-- What is done to a session and told to the presentation. -/
abbrev SessionM := Action Course

namespace SessionM

def tell (events : List Event) : SessionM Unit :=
  modify fun c => { c with events := c.events ++ events }

/-- Changes the session, which cannot fail, and tells of it. -/
def enact (f : Session → Session × List Event) : SessionM Unit := do
  let (after, events) := f (← get).session
  modify fun c => { c with session := after }
  tell events

/-- Evaluates a line. The tokens act on a draft, which an error gives up. -/
def evaluate (line : String) : SessionM Unit := do
  let tokens := (← liftExcept (Token.scanLine line)).map Token.text
  let s := (← get).session
  match s.evaluator.travel? tokens with
  | some t => enact (·.travel t)
  | none =>
    let draft ← liftExcept (s.evaluator.run s.stack tokens)
    enact (·.commit draft)

/-- Evaluates a line, and tells the presentation of an error. -/
def submit (line : String) : SessionM Unit :=
  tryCatch (evaluate line) fun e => do
    tell [.error e.message]
    throw e

end SessionM

namespace Session

/-- What comes of a line in a session. -/
def submit (s : Session) (line : String) : Submission :=
  let (after, outcome) := (SessionM.submit line).outcome { session := s }
  ⟨after.session, after.events, outcome⟩

/-- A session of the same catalog and settings on an empty stack, without history. -/
def scratch (s : Session) : Session :=
  start s.evaluator.catalog { s.settings with historyLimit := 0 } fun _ => false

/-- The stack that each example of an operator leaves behind in a session of its own. -/
def examples (s : Session) (name : String) : Except Error (List (String × List ItemView)) :=
  match s.evaluator.catalog.find? name with
  | none => .error (.parse name .noSuchOperator)
  | some op => op.examples.mapM fun line => do
    let submission := s.scratch.submit line
    submission.outcome
    .ok (line, submission.session.view)

end Session

end ReversePolish
