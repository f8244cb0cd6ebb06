import ReversePolish.Action
import ReversePolish.Item
import ReversePolish.Stack.Change

/-! # The stack

Every operation that succeeds counts as one version, and tells what it changed. -/

namespace ReversePolish

/-- The items at some time, the top last. -/
structure Snapshot where
  items : List Item := []
  version : Nat := 0
  deriving BEq

/-- The stack as it is, and the number of items it may hold. -/
structure Stack extends Snapshot where
  maxDepth : Option Nat := none

namespace Stack

def empty (maxDepth : Option Nat) : Stack := { maxDepth }

def size (s : Stack) : Nat := s.items.length

/-- The kinds of the results. -/
def kinds (s : Stack) : List Kind := s.items.map (·.result.kind)

def top? (s : Stack) : Option Item := s.items.getLast?

/-- Refuses a number of items that is too large. -/
def checkDepth (s : Stack) (size : Nat) : Except Error Unit :=
  match s.maxDepth with
  | some limit => if limit < size then .error (.stackOverflow limit) else .ok ()
  | none => .ok ()

/-- The next version, of these items. -/
def update (s : Stack) (items : List Item) : Stack :=
  { s with items, version := s.version + 1 }

@[simp]
theorem items_update (s : Stack) (items : List Item) : (s.update items).items = items := rfl

@[simp]
theorem version_update (s : Stack) (items : List Item) :
    (s.update items).version = s.version + 1 := rfl

@[simp]
theorem maxDepth_update (s : Stack) (items : List Item) :
    (s.update items).maxDepth = s.maxDepth := rfl

def clear (s : Stack) : Stack × Change Item := (s.update [], .replace [])

/-- The items of a snapshot, as a new version. -/
def restore (s : Stack) (old : Snapshot) : Stack × Change Item :=
  (s.update old.items, .replace old.items)

/-- No message names a larger count. -/
def greatestCount : Nat := UInt64.size - 1

end Stack

/-- What is done to a stack where it is. -/
abbrev StackM := Action Stack

namespace StackM

def modifyItems (f : List Item → List Item) : StackM Unit :=
  modify fun s => { s with items := f s.items }

def countVersion : StackM Unit := modify fun s => { s with version := s.version + 1 }

def push (item : Item) : StackM (Change Item) := do
  let s ← get
  liftExcept (s.checkDepth (s.size + 1))
  modifyItems (· ++ [item])
  countVersion
  return .add item

/-- Takes the top away. -/
def pop : StackM (Item × Change Item) := do
  let s ← get
  match s.top? with
  | some item =>
    modifyItems List.dropLast
    countVersion
    return (item, .remove)
  | none => throw (.stackUnderflow "pop" 1 0)

/-- Puts items in the place of others. At the top this is told item by item, and elsewhere as a
replacement of the whole stack. -/
def replaceRange (start count : Nat) (items : List Item) : StackM (List (Change Item)) := do
  let s ← get
  if s.size < start + count then
    throw (.stackUnderflow "replace" (min (start + count) Stack.greatestCount) s.size)
  else
    liftExcept (s.checkDepth (s.size - count + items.length))
    modifyItems (·.take start)
    modifyItems (· ++ items)
    modifyItems (· ++ s.items.drop (start + count))
    countVersion
    if start + count = s.size then return List.replicate count .remove ++ items.map .add
    else return [.replace (← get).items]

def clear : StackM (Change Item) := Action.total Stack.clear

def restore (old : Snapshot) : StackM (Change Item) := Action.total (·.restore old)

end StackM

namespace Stack

open ReversePolish.Action

/-- The stack with the item on top, for those who give up the stack when it is full. -/
def push (s : Stack) (item : Item) : Except Error (Stack × Change Item) :=
  (StackM.push item).attempt s

/-- The top, and the stack below it. -/
def pop (s : Stack) : Except Error (Item × Stack × Change Item) :=
  (StackM.pop.attempt s).map fun (below, item, change) => (item, below, change)

def replaceRange (s : Stack) (start count : Nat) (items : List Item) :
    Except Error (Stack × List (Change Item)) :=
  (StackM.replaceRange start count items).attempt s

theorem push_eq (s : Stack) (item : Item) :
    s.push item = s.checkDepth (s.size + 1) >>= fun _ =>
      .ok (s.update (s.items ++ [item]), .add item) := by
  simp only [push, StackM.push, StackM.modifyItems, StackM.countVersion, attempt_get_bind,
    attempt_liftExcept_bind, attempt_modify_bind, attempt_pure, update]

theorem pop_eq (s : Stack) :
    s.pop = match s.top? with
      | some item => .ok (item, s.update s.items.dropLast, .remove)
      | none => .error (.stackUnderflow "pop" 1 0) := by
  simp only [pop, StackM.pop, attempt_get_bind]
  cases s.top? <;> rfl

theorem replaceRange_eq (s : Stack) (start count : Nat) (items : List Item) :
    s.replaceRange start count items =
      if s.size < start + count then
        .error (.stackUnderflow "replace" (min (start + count) greatestCount) s.size)
      else s.checkDepth (s.size - count + items.length) >>= fun _ =>
        let new := s.items.take start ++ items ++ s.items.drop (start + count)
        let changes :=
          if start + count = s.size then List.replicate count .remove ++ items.map .add
          else [.replace new]
        .ok (s.update new, changes) := by
  simp only [replaceRange, StackM.replaceRange, StackM.modifyItems, StackM.countVersion,
    attempt_get_bind, attempt_liftExcept_bind, attempt_modify_bind, attempt_ite, attempt_throw,
    attempt_pure, update]
  by_cases htop : start + count = s.size
  · simp only [if_pos htop]
  · simp only [if_neg htop]

end Stack

end ReversePolish
