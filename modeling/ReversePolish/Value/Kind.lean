/-! # The kinds of values -/

namespace ReversePolish

/-- The sizes of vectors and square matrices. -/
inductive Dimension where
  | two
  | three
  | four
  deriving DecidableEq, Repr

namespace Dimension

def all : List Dimension := [.two, .three, .four]

def size : Dimension → Nat
  | .two => 2
  | .three => 3
  | .four => 4

def ofSize? (n : Nat) : Option Dimension := all.find? (·.size = n)

end Dimension

/-- The kinds of values. -/
inductive Kind where
  | int
  | bigInt
  | real
  | vector (d : Dimension)
  | matrix (d : Dimension)
  | unit
  deriving DecidableEq, Repr

namespace Kind

/-- Every kind, in the order of their codes. -/
def all : List Kind :=
  [.int, .bigInt, .real] ++ Dimension.all.map .vector ++ Dimension.all.map .matrix ++ [.unit]

def name : Kind → String
  | .int => "Int"
  | .bigInt => "BigInt"
  | .real => "Real"
  | .vector d => "Vec" ++ toString d.size
  | .matrix d => "Mat" ++ toString d.size
  | .unit => "Unit"

def code (k : Kind) : Nat := all.idxOf k

def ofCode? (n : Nat) : Option Kind := all[n]?

end Kind

/-- A set of kinds. -/
structure KindSet where
  contains : Kind → Bool

namespace KindSet

def empty : KindSet := ⟨fun _ => false⟩

def of (k : Kind) : KindSet := ⟨fun j => j = k⟩

def union (s t : KindSet) : KindSet := ⟨fun k => s.contains k || t.contains k⟩

instance : Union KindSet := ⟨union⟩

/-- The members, in the order of their codes. -/
def kinds (s : KindSet) : List Kind := Kind.all.filter s.contains

def isEmpty (s : KindSet) : Bool := s.kinds.isEmpty

def isAny (s : KindSet) : Bool := Kind.all.all s.contains

def int : KindSet := of .int

def bigInt : KindSet := of .bigInt

def real : KindSet := of .real

def unit : KindSet := of .unit

def integer : KindSet := int ∪ bigInt

def scalar : KindSet := integer ∪ real

def vector : KindSet := ⟨fun | .vector _ => true | _ => false⟩

def matrix : KindSet := ⟨fun | .matrix _ => true | _ => false⟩

def any : KindSet := ⟨fun _ => true⟩

def name (s : KindSet) : String :=
  if s.isAny then "Any" else " | ".intercalate (s.kinds.map Kind.name)

end KindSet

end ReversePolish
