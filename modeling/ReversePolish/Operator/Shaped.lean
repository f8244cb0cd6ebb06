import ReversePolish.Operator.Arguments

/-! # Arithmetic of vectors and matrices -/

namespace ReversePolish.Operator

def mismatched (op : String) (a b : Value) : Except Error Value :=
  .error (.shapeMismatch (.operands op a.kind b.kind))

def unexpected (op : String) (a : Value) : Except Error Value :=
  .error (.internal (.operand op a.kind))

/-- The sum of two vectors or two matrices of one size, entry by entry. -/
def addShaped (op : String) (a b : Value) : Except Error Value :=
  match a, b with
  | .vector d v, .vector e w =>
    if h : d = e then .ok (.vector e (RealVector.add (h ▸ v) w)) else mismatched op a b
  | .matrix d m, .matrix e k =>
    if h : d = e then .ok (.matrix e (SquareMatrix.add (h ▸ m) k)) else mismatched op a b
  | _, _ => mismatched op a b

/-- A vector negated entry by entry, and a matrix multiplied by minus one. -/
def negShaped (a : Value) : Except Error Value :=
  match a with
  | .vector d v => .ok (.vector d v.neg)
  | .matrix d m => .ok (.matrix d m.neg)
  | other => unexpected "neg" other

/-- The sum with the negated second argument. -/
def subShaped (op : String) (a b : Value) : Except Error Value := do addShaped op a (← negShaped b)

/-- A vector or matrix times a real. -/
def scaleShaped (op : String) (a : Value) (k : Float) : Except Error Value :=
  match a with
  | .vector d v => .ok (.vector d (v.scale k))
  | .matrix d m => .ok (.matrix d (m.scale k))
  | other => unexpected op other

/-- A product in which not both factors are scalars. -/
def mulShaped (op : String) (a b : Value) : Except Error Value :=
  match a, b with
  | .scalar s, b => scaleShaped op b s.toReal
  | a, .scalar s => scaleShaped op a s.toReal
  | .matrix d m, .matrix e k =>
    if h : d = e then .ok (.matrix e (SquareMatrix.mul (h ▸ m) k)) else mismatched op a b
  | .matrix d m, .vector e v =>
    if h : d = e then .ok (.vector e (SquareMatrix.mulVector (h ▸ m) v)) else mismatched op a b
  | a, b => mismatched op a b

end ReversePolish.Operator
