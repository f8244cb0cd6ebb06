/-! # Changes of a list at its end -/

namespace ReversePolish

/-- A change of a stack, as an observer follows it. -/
inductive Change (α : Type) where
  /-- The item came on top. -/
  | add (item : α)
  /-- The top went away. -/
  | remove
  /-- These are now all items, the top last. -/
  | replace (items : List α)

namespace Change

variable {α β : Type}

/-- The list after the change; nothing goes away from an empty list. -/
def apply (items : List α) : Change α → List α
  | add item => items ++ [item]
  | remove => items.dropLast
  | replace new => new

/-- The list after changes in turn, of which none removes from an empty list. -/
def replay? : List α → List (Change α) → Option (List α)
  | items, [] => some items
  | [], remove :: _ => none
  | items, c :: cs => replay? (c.apply items) cs

theorem replay?_append (items : List α) (cs ds : List (Change α)) :
    replay? items (cs ++ ds) = (replay? items cs).bind (replay? · ds) := by
  fun_induction replay? items cs with
  | case1 items => rfl
  | case2 => rfl
  | case3 items c cs h ih => rw [List.cons_append, replay?, ih]; exact h

def map (f : α → β) : Change α → Change β
  | add item => add (f item)
  | remove => remove
  | replace items => replace (items.map f)

theorem map_apply (f : α → β) (items : List α) (c : Change α) :
    (c.apply items).map f = (c.map f).apply (items.map f) := by
  cases c <;> simp [apply, map]

def isReplace : Change α → Bool
  | replace _ => true
  | _ => false

end Change

end ReversePolish
