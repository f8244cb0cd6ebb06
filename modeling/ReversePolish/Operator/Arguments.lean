import ReversePolish.Operator.Basic

/-! # Arguments by number and rank -/

namespace ReversePolish.Operator

/-- The only argument. -/
def unary (op : String) (f : Value → Except Error Value) (args : List Value) :
    Except Error Value :=
  match args with
  | [a] => f a
  | _ => .error (.internal (.arity op 1 args.length))

/-- The two arguments. -/
def binary (op : String) (f : Value → Value → Except Error Value) (args : List Value) :
    Except Error Value :=
  match args with
  | [a, b] => f a b
  | _ => .error (.internal (.arity op 2 args.length))

/-- The three arguments. -/
def ternary (op : String) (f : Value → Value → Value → Except Error Value) (args : List Value) :
    Except Error Value :=
  match args with
  | [a, b, c] => f a b c
  | _ => .error (.internal (.arity op 3 args.length))

/-- A scalar argument. -/
def scalarArg (op : String) (v : Value) : Except Error Scalar :=
  match v with
  | .scalar s => .ok s
  | other => .error (.internal (.notScalar op other.kind))

/-- A scalar argument as a real. -/
def realArg (op : String) (v : Value) : Except Error Float := (scalarArg op v).map Scalar.toReal

/-- Two scalar arguments of one rank. -/
def scalarPair (op : String) (a b : Value) : Except Error Scalar.Pair :=
  match a, b with
  | .scalar s, .scalar t => .ok (Scalar.promote s t)
  | _, _ => .error (.internal (.operands op a.kind b.kind))

end ReversePolish.Operator
