import ReversePolish.Proofs.Session.Submission
import ReversePolish.Terminal.Program

/-! # Presentations follow the stack

An observer that knows nothing but the events, and begins with no items, holds after every line
what the session would show. -/

namespace ReversePolish

/-- The change of the stack that an event tells. -/
def Event.change? : Event → Option (Change ItemView)
  | .stack c => some c
  | _ => none

/-- The changes of the stack that events tell in turn. -/
def Event.changes (events : List Event) : List (Change ItemView) :=
  events.filterMap Event.change?

namespace Event

theorem changes_append (events more : List Event) :
    changes (events ++ more) = changes events ++ changes more :=
  List.filterMap_append

theorem changes_info (text : String) : changes [info text] = [] := rfl

theorem changes_error (text : String) : changes [error text] = [] := rfl

theorem changes_map_command (tokens : List String) : changes (tokens.map command) = [] := by
  simp [changes, change?]

end Event

namespace Session

/-- The changes are announced so that a view of the items before turns into one of the items after
them, whether they are told one by one or as one replacement. -/
theorem replay?_announce {style : Style} {changes : List (Change Item)} {before after : List Item}
    (h : Change.replay? before changes = some after) :
    Change.replay? (before.map (Item.view style)) (Event.changes (announce style changes after)) =
      some (after.map (Item.view style)) := by
  simp only [announce]
  split
  · simp [Event.changes, Event.change?, Change.replay?, Change.apply]
  · have hmap : Event.changes (changes.map fun c => .stack (c.map (Item.view style))) =
        changes.map (Change.map (Item.view style)) := by
      simp [Event.changes, Event.change?, List.filterMap_map, Function.comp_def]
    rw [hmap, Change.replay?_map, h, Option.map_some]

theorem replay?_travel (s : Session) (t : Travel) :
    Change.replay? s.view (Event.changes (s.travel t).2) = some (s.travel t).1.view := by
  simp only [travel]
  split
  · rw [Event.changes_info, Change.replay?]
  · next old history _ => exact replay?_announce (s.stack.advances_restore old).replay

theorem replay?_commit {s : Session} {d : Draft} (h : d.Follows s.stack) :
    Change.replay? s.view (Event.changes (s.commit d).2) = some (s.commit d).1.view := by
  simp only [commit]
  split
  · rw [Event.changes_map_command, Change.replay?]
  · rw [Event.changes_append, Event.changes_map_command, List.append_nil]
    exact replay?_announce h.replay

theorem replay?_submit (s : Session) (line : String) :
    Change.replay? s.view (Event.changes (s.submit line).events) =
      some (s.submit line).session.view := by
  have h := submit_yields s line
  generalize s.submit line = sub at h
  cases h with
  | failed _ => rw [Event.changes_error, Change.replay?]
  | travelled hline ht => exact replay?_travel s _
  | evaluated hline ht hrun => exact replay?_commit (Evaluator.follows_run hrun)

theorem replay?_submitAll (s : Session) (lines : List String) :
    Change.replay? s.view (Event.changes (s.submitAll lines).2) =
      some (s.submitAll lines).1.view := by
  induction lines generalizing s with
  | nil => simp [submitAll, Event.changes, Change.replay?]
  | cons line lines ih =>
      rw [submitAll, Event.changes_append, Change.replay?_append, replay?_submit, Option.bind_some]
      exact ih _

end Session

/-! ## The terminal -/

namespace Terminal

theorem items_run (t : Terminal) (c : Catalog) (token : String) :
    (t.run c token).1.items = t.items := by
  simp only [run]
  split <;> rfl

theorem items_receive (t : Terminal) (c : Catalog) (e : Event) :
    (t.receive c e).1.items = (Event.changes [e]).foldl Change.apply t.items := by
  cases e with
  | info text => rfl
  | error text => rfl
  | command token => exact items_run t c token
  | stack change => rfl

theorem items_receiveAll (t : Terminal) (c : Catalog) (events : List Event) :
    (t.receiveAll c events).1.items = (Event.changes events).foldl Change.apply t.items := by
  induction events generalizing t with
  | nil => rfl
  | cons e events ih =>
      rw [receiveAll, ih, items_receive, ← List.foldl_append, ← Event.changes_append]
      rfl

end Terminal

theorem Change.foldl_apply_of_replay? {α : Type} {items after : List α}
    {changes : List (Change α)} (h : replay? items changes = some after) :
    changes.foldl apply items = after := by
  fun_induction replay? items changes with
  | case1 items => exact Option.some.inj h
  | case2 => cases h
  | case3 items c changes _ ih => exact ih h

namespace Program

/-- The terminal shows the stack of the session. -/
def InStep (p : Program) : Prop := p.terminal.items = p.session.view

theorem inStep_enter {p : Program} (h : p.InStep) (line : String) : (p.enter line).1.InStep := by
  rw [InStep, enter, Terminal.items_receiveAll, h]
  exact Change.foldl_apply_of_replay? (Session.replay?_submit p.session line)

theorem inStep_enterAll {p : Program} (h : p.InStep) (lines : List String) :
    (p.enterAll lines).1.InStep := by
  induction lines generalizing p with
  | nil => exact h
  | cons line lines ih => exact ih (inStep_enter h line)

end Program

/-! ## Following a session from its start -/

/-- Of an observer that begins with no items, takes every change in turn and never lacks an item
that is to go away, and of the terminal: after any lines both have what the session shows. The
lines may fail, be blank, step through the history or hand tokens to the presentation. -/
theorem Session.observers_in_step (catalog : Catalog) (settings : Settings)
    (claims : String → Bool) (lines : List String) :
    let after := (start catalog settings claims).submitAll lines
    let program := ((Program.start catalog settings).enterAll lines).1
    Change.replay? [] (Event.changes after.2) = some after.1.view ∧
      (Terminal.receiveAll {} catalog after.2).1.items = after.1.view ∧
      program.terminal.items = program.session.view := by
  intro after program
  have hreplay : Change.replay? [] (Event.changes after.2) = some after.1.view :=
    replay?_submitAll (start catalog settings claims) lines
  have hstart : (Program.start catalog settings).InStep := rfl
  refine ⟨hreplay, ?_, Program.inStep_enterAll hstart lines⟩
  rw [Terminal.items_receiveAll]
  exact Change.foldl_apply_of_replay? hreplay

end ReversePolish
