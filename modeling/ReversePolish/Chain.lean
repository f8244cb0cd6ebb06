import ReversePolish.Value.Format

/-! # Input chains

An item remembers the input behind it: a literal, or the inputs of the operands followed by the
name of the operator. Readers see the leaves alone, in order. -/

namespace ReversePolish

/-- A part of an input chain. -/
inductive Piece where
  | text (s : String)
  | value (v : Value) (style : Style)
  | nested (pieces : List Piece)
  deriving BEq

/-- Parts in order, and the style of what they result in. -/
structure Chain where
  pieces : List Piece := []
  style : Style := {}
  deriving BEq

/-- A leaf of an input chain. -/
inductive Fragment where
  | text (s : String)
  | value (v : Value) (style : Style)

def Fragment.render : Fragment → String
  | text s => s
  | value v style => v.format style

/-- A walk through the leaves of a chain: the parts that are still to come, those of the innermost
chain first. -/
structure Walk where
  pending : List (List Piece)

namespace Walk

/-- The next leaf, and the walk behind it. -/
def next? (w : Walk) : Option (Fragment × Walk) :=
  match w with
  | ⟨[]⟩ => none
  | ⟨[] :: rest⟩ => next? ⟨rest⟩
  | ⟨(.text s :: ps) :: rest⟩ => some (.text s, ⟨ps :: rest⟩)
  | ⟨(.value v style :: ps) :: rest⟩ => some (.value v style, ⟨ps :: rest⟩)
  | ⟨(.nested qs :: ps) :: rest⟩ => next? ⟨qs :: ps :: rest⟩
  termination_by sizeOf w.pending

theorem sizeOf_lt_of_next? {w after : Walk} {f : Fragment} (h : w.next? = some (f, after)) :
    sizeOf after.pending < sizeOf w.pending := by
  fun_induction next? w with
  | case1 => cases h
  | case2 rest ih | case5 qs ps rest ih =>
    have := ih h
    simp at this ⊢
    omega
  | case3 s ps rest | case4 v style ps rest =>
    simp only [Option.some.injEq, Prod.mk.injEq] at h
    simp only [← h.2, List.cons.sizeOf_spec, Piece.text.sizeOf_spec, Piece.value.sizeOf_spec]
    omega

/-- The leaves that are still to come. -/
def toList (w : Walk) : List Fragment :=
  match h : w.next? with
  | none => []
  | some (f, after) =>
    have := sizeOf_lt_of_next? h
    f :: after.toList
  termination_by sizeOf w.pending

end Walk

namespace Chain

/-- The chain of a literal. -/
def literal (v : Value) (style : Style) : Chain := ⟨[.value v style], style⟩

/-- The chain of an operator applied to operands, in the style of the first of them. -/
def application (operands : List Chain) (name : String) : Chain where
  pieces := operands.map (.nested ·.pieces) ++ [.text name]
  style := (operands.head?.map style).getD {}

def walk (c : Chain) : Walk := ⟨[c.pieces]⟩

/-- The leaves, in order. -/
def fragments (c : Chain) : List Fragment := c.walk.toList

/-- Whether there is no leaf. -/
def isEmpty (c : Chain) : Bool := c.walk.next?.isNone

def rendered (c : Chain) : List String := c.fragments.map Fragment.render

end Chain

end ReversePolish
