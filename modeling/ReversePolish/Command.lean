import ReversePolish.Text.Order

/-! # Commands

A command is a word behind a backslash that acts on the stack as a whole. -/

namespace ReversePolish

/-- A change of the stack that does not look at values. -/
inductive Edit where
  | clear
  | pop
  | dup
  | swap
  deriving DecidableEq, Repr

/-- A step through the history. -/
inductive Travel where
  | undo
  | redo
  deriving DecidableEq, Repr

/-- The name of the step in an internal error. -/
def Travel.label : Travel → String
  | undo => "Undo"
  | redo => "Redo"

inductive Command where
  | edit (e : Edit)
  | travel (t : Travel)
  deriving DecidableEq, Repr

namespace Command

/-- In the order of the help. -/
def all : List Command :=
  [.edit .clear, .edit .pop, .edit .dup, .edit .swap, .travel .undo, .travel .redo]

/-- Whether the command steps through the history. -/
def isTravel : Command → Bool
  | travel _ => true
  | edit _ => false

/-- The name without the backslash. -/
def name : Command → String
  | edit .clear => "clear"
  | edit .pop => "pop"
  | edit .dup => "dup"
  | edit .swap => "swap"
  | travel .undo => "undo"
  | travel .redo => "redo"

def aliases : Command → List String
  | edit .pop => ["drop"]
  | _ => []

def description : Command → String
  | edit .clear => "Remove every item from the stack"
  | edit .pop => "Remove the top item"
  | edit .dup => "Duplicate the top item"
  | edit .swap => "Exchange the top two items"
  | travel .undo => "Restore the stack as it was before the last change"
  | travel .redo => "Reapply the last undone change"

/-- The name and the aliases. -/
def names (c : Command) : List String := c.name :: c.aliases

/-- The token that stands for a name. -/
def token (name : String) : String := "\\" ++ name

/-- Whether a token has the form of a command. -/
def isToken (text : String) : Bool := text.startsWith "\\"

/-- The command of a token. -/
def find? (text : String) : Option Command := all.find? (·.names.any (token · = text))

/-- The tokens that begin with the given text, the shorter first. -/
def complete (start : String) : List String :=
  if isToken start then
    (((all.flatMap names).map token).filter (·.startsWith start)).mergeSort Text.shorterFirst
  else []

end Command

end ReversePolish
