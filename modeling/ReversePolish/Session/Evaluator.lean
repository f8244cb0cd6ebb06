import ReversePolish.Catalog.Basic
import ReversePolish.Command
import ReversePolish.Literal.Reading
import ReversePolish.Stack.Basic
import ReversePolish.Token

/-! # Evaluation of a line

Every token is a literal, an operator or a command, in this order of preference. It acts on a draft
of the stack; nothing but the draft is changed. -/

namespace ReversePolish

/-- What the tokens of a line are evaluated by. -/
structure Evaluator where
  catalog : Catalog
  limits : Limits
  /-- The style of literals that ask for none. -/
  style : Style := {}
  /-- The command tokens that the presentation takes over. -/
  claims : String → Bool := fun _ => false

/-- What a token is. -/
inductive Meaning where
  | literal (l : Literal)
  | operator (op : Operator)
  | claimed
  | command (c : Command)

/-- A line under way: the stack as it would be, the changes that led there, and the tokens to hand
to the presentation. A draft is for the evaluation of the line alone, and an error gives it up. -/
structure Draft where
  stack : Stack
  changes : List (Change Item) := []
  claimed : List String := []

/-- The draft after a change of its stack. -/
def Draft.change (d : Draft) (changed : Stack × List (Change Item)) : Draft :=
  { d with stack := changed.1, changes := d.changes ++ changed.2 }

namespace StackM

/-- Puts the result of an operator in the place of its operands. -/
def operate (limits : Limits) (op : Operator) : StackM (List (Change Item)) := do
  let s ← get
  if s.size < op.arity then throw (.stackUnderflow op.name op.arity s.size)
  else
    let start := s.size - op.arity
    let operands := s.items.drop start
    let result ← liftExcept (op.apply limits (operands.map Item.result))
    let input := Chain.application (operands.map Item.input) op.name
    replaceRange start op.arity [⟨input, result⟩]

/-- Runs a command that acts on the stack alone. -/
def runCommand : Command → StackM (List (Change Item))
  | .edit .clear => return [← clear]
  | .edit .pop => return [(← pop).2]
  | .edit .dup => do
    let s ← get
    match s.top? with
    | some top => return [← push top]
    | none => throw (.stackUnderflow "dup" 1 0)
  | .edit .swap => do
    let s ← get
    if s.size < 2 then throw (.stackUnderflow "swap" 2 s.size)
    else
      match s.items[s.size - 2]?, s.items[s.size - 1]? with
      | some below, some top => replaceRange (s.size - 2) 2 [top, below]
      | _, _ => throw (.internal .operandsVanished)
  | .travel t => throw (.internal (.strayTravel t))

end StackM

namespace Stack

open ReversePolish.Action

def operate (s : Stack) (limits : Limits) (op : Operator) :
    Except Error (Stack × List (Change Item)) :=
  (StackM.operate limits op).attempt s

def runCommand (s : Stack) (c : Command) : Except Error (Stack × List (Change Item)) :=
  (StackM.runCommand c).attempt s

theorem operate_def (s : Stack) (limits : Limits) (op : Operator) :
    s.operate limits op =
      if s.size < op.arity then .error (.stackUnderflow op.name op.arity s.size)
      else
        let start := s.size - op.arity
        let operands := s.items.drop start
        op.apply limits (operands.map Item.result) >>= fun result =>
          let input := Chain.application (operands.map Item.input) op.name
          s.replaceRange start op.arity [⟨input, result⟩] := by
  simp only [operate, StackM.operate, attempt_get_bind, attempt_ite, attempt_throw,
    attempt_liftExcept_bind, replaceRange]

theorem runCommand_pop (s : Stack) :
    s.runCommand (.edit .pop) = s.pop.map fun (_, below, change) => (below, [change]) := by
  simp only [runCommand, StackM.runCommand, attempt_bind, pop]
  cases StackM.pop.attempt s <;> rfl

theorem runCommand_dup (s : Stack) :
    s.runCommand (.edit .dup) = match s.top? with
      | some top => (s.push top).map fun (above, change) => (above, [change])
      | none => .error (.stackUnderflow "dup" 1 0) := by
  simp only [runCommand, StackM.runCommand, attempt_get_bind]
  cases s.top? with
  | none => rfl
  | some top =>
    simp only [attempt_bind, push]
    cases (StackM.push top).attempt s <;> rfl

theorem runCommand_swap (s : Stack) :
    s.runCommand (.edit .swap) = match s.items.drop (s.size - 2) with
      | [below, top] => s.replaceRange (s.size - 2) 2 [top, below]
      | _ => .error (.stackUnderflow "swap" 2 s.size) := by
  simp only [runCommand, StackM.runCommand, attempt_get_bind, attempt_ite, attempt_throw]
  by_cases hfew : s.size < 2
  · rw [if_pos hfew]
    split
    · next h =>
      have hlength := congrArg List.length h
      rw [List.length_drop, ← size] at hlength
      simp only [List.length_cons, List.length_nil] at hlength
      omega
    · rfl
  · have hsize : s.size = s.items.length := rfl
    have hbelow : s.size - 2 < s.items.length := by omega
    have htop : s.size - 1 < s.items.length := by omega
    have hdrop : s.items.drop (s.size - 2) = [s.items[s.size - 2], s.items[s.size - 1]] := by
      have hnext : s.size - 2 + 1 = s.size - 1 := by omega
      rw [List.drop_eq_getElem_cons hbelow, hnext, List.drop_eq_getElem_cons htop,
        List.drop_eq_nil_of_le (by omega)]
    rw [if_neg hfew, List.getElem?_eq_getElem hbelow, List.getElem?_eq_getElem htop, hdrop]
    rfl

end Stack

namespace Evaluator

/-- What a token is, whatever the stack. -/
def meaning (e : Evaluator) (token : String) : Except Error Meaning := do
  match ← Literal.read token with
  | some l => .ok (.literal l)
  | none =>
    match e.catalog.find? token with
    | some op => .ok (.operator op)
    | none =>
      if !Command.isToken token then .error (.parse token .unknownToken)
      else if e.claims token then .ok .claimed
      else
        match Command.find? token with
        | some c => .ok (.command c)
        | none => .error (.unknownCommand token)

/-- The item of a literal, in its own style where that sets something. -/
def literalItem (e : Evaluator) (l : Literal) : Item :=
  ⟨Chain.literal l.value (l.style.orElse e.style), l.value⟩

/-- What a token does to a draft. Steps through the history are for a line of their own. -/
def perform (e : Evaluator) (d : Draft) (token : String) : Meaning → Except Error Draft
  | .literal l => do
    let (stack, change) ← d.stack.push (e.literalItem l)
    .ok (d.change (stack, [change]))
  | .operator op => (d.stack.operate e.limits op).map d.change
  | .claimed => .ok { d with claimed := d.claimed ++ [token] }
  | .command c =>
    if c.isTravel then .error (.parse token .notAlone)
    else (d.stack.runCommand c).map d.change

def step (e : Evaluator) (d : Draft) (token : String) : Except Error Draft := do
  e.perform d token (← e.meaning token)

/-- Evaluates tokens on a stack, up to the first that fails. -/
def run (e : Evaluator) (stack : Stack) (tokens : List String) : Except Error Draft :=
  tokens.foldlM e.step { stack }

/-- The step through the history that a line of one token asks for. -/
def travel? (e : Evaluator) : List String → Option Travel
  | [token] =>
    match e.meaning token with
    | .ok (.command (.travel t)) => some t
    | _ => none
  | _ => none

end Evaluator

end ReversePolish
