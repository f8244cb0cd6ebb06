/-! # Going through candidates -/

namespace ReversePolish

/-- Candidates for a text, in a circle, with a cursor that is nowhere at first. -/
structure Completion where
  typed : String := ""
  candidates : List String := []
  cursor : Option Nat := none
  /-- Whether a completion has begun and not ended. -/
  initialized : Bool := false
  deriving DecidableEq, Repr

namespace Completion

/-- No candidates for no text. -/
def idle : Completion := {}

def start (typed : String) (candidates : List String) : Completion :=
  { typed, candidates, initialized := true }

def isActive (c : Completion) : Bool := c.initialized && !c.candidates.isEmpty

/-- The number of candidates, while there are any. -/
def count? (c : Completion) : Option Nat :=
  if c.isActive then some c.candidates.length else none

/-- The candidate at the cursor. -/
def current? (c : Completion) : Option String := c.cursor.bind (c.candidates[·]?)

end Completion

/-- What is asked of a completion. -/
abbrev CompletionM := StateM Completion

namespace CompletionM

/-- Begins anew, and answers with the candidates. -/
def start (typed : String) (candidates : List String) : CompletionM (List String) := do
  set (Completion.start typed candidates)
  return candidates

def current : CompletionM (Option String) := return (← get).current?

/-- Puts the cursor at the place that follows from its last one and the number of candidates, and
answers with the candidate there. -/
def move (place : Option Nat → Nat → Nat) : CompletionM (Option String) := do
  let c ← get
  match c.count? with
  | some n =>
    set { c with cursor := some (place c.cursor n) }
    current
  | none => return none

/-- Moves forward, from nowhere to the first candidate. -/
def next : CompletionM (Option String) :=
  move fun cursor n => cursor.elim 0 fun i => (i + 1) % n

/-- Moves back, from nowhere to the last candidate. -/
def previous : CompletionM (Option String) :=
  move fun cursor n => cursor.elim (n - 1) fun i => (i + n - 1) % n

def cancel : CompletionM Unit := set Completion.idle

/-- Answers with the candidate at the cursor, and ends. -/
def accept : CompletionM (Option String) := do
  let accepted ← current
  cancel
  return accepted

end CompletionM

namespace Completion

/-- The completion after a move forward. -/
def next (c : Completion) : Completion := (CompletionM.next.run c).2

/-- The completion after a move back. -/
def previous (c : Completion) : Completion := (CompletionM.previous.run c).2

/-- The candidate that is accepted, and the end of the completion. -/
def accept (c : Completion) : Option String × Completion := CompletionM.accept.run c

end Completion

end ReversePolish
