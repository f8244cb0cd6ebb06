import ReversePolish.Stack.Basic

/-! # Undo and redo -/

namespace ReversePolish

/-- The versions around the current one: the past, oldest first, and the undone future, nearest
first. -/
structure History where
  past : List Snapshot := []
  future : List Snapshot := []
  limit : Nat

namespace History

def canUndo (h : History) : Bool := !h.past.isEmpty

def canRedo (h : History) : Bool := !h.future.isEmpty

/-- Puts a version that was replaced into the past, of which the latest up to the limit are kept,
and forgets the future. -/
def record (h : History) (old : Snapshot) : History :=
  let past := h.past ++ [old]
  { h with past := past.drop (past.length - h.limit), future := [] }

/-- One step back from the current version: the version to restore, and the history then. -/
def undo? (h : History) (current : Snapshot) : Option (Snapshot × History) :=
  h.past.getLast?.map fun old =>
    (old, { h with past := h.past.dropLast, future := current :: h.future })

/-- One step forward from the current version. -/
def redo? (h : History) (current : Snapshot) : Option (Snapshot × History) :=
  h.future.head?.map fun next =>
    (next, { h with past := h.past ++ [current], future := h.future.tail })

end History

end ReversePolish
