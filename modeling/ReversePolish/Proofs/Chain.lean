import ReversePolish.Chain

/-! # The leaves of input chains

The walk through a chain keeps a stack of parts that are still to come. It ends, and it goes past
the leaves in the order in which they stand, however deep they are nested. In particular the leaves
of an application are those of its operands, in order, and then the operator: a chain reads as the
line that would be entered for it. -/

namespace ReversePolish

mutual

/-- The leaves of a part, from left to right. -/
def Piece.leaves : Piece → List Fragment
  | .text s => [.text s]
  | .value v style => [.value v style]
  | .nested pieces => Piece.leavesIn pieces

/-- The leaves of parts that follow each other. -/
def Piece.leavesIn : List Piece → List Fragment
  | [] => []
  | piece :: pieces => piece.leaves ++ Piece.leavesIn pieces

end

mutual

/-- How many turns of a walk a part takes. -/
def Piece.turns : Piece → Nat
  | .text _ => 1
  | .value _ _ => 1
  | .nested pieces => 1 + Piece.turnsIn pieces

/-- How many turns of a walk parts that follow each other take, with the one that finds no more of
them. -/
def Piece.turnsIn : List Piece → Nat
  | [] => 1
  | piece :: pieces => piece.turns + Piece.turnsIn pieces

end

namespace Piece

theorem leavesIn_eq_flatMap (pieces : List Piece) : leavesIn pieces = pieces.flatMap leaves := by
  induction pieces with
  | nil => rfl
  | cons piece pieces ih => rw [leavesIn, ih, List.flatMap_cons]

end Piece

namespace Walk

/-! ## Turns of a walk -/

/-- The leaves of all that is still to come. -/
def leaves (w : Walk) : List Fragment := w.pending.flatMap Piece.leavesIn

/-- The turns that all that is still to come takes. -/
def turns (w : Walk) : Nat := w.pending.foldr (fun pieces n => Piece.turnsIn pieces + n) 0

/-- A turn goes past a leaf, into a nested chain, or out of a chain of which no part is left. -/
inductive Turn : Walk → Option Fragment → Walk → Prop where
  | text (s : String) (ps : List Piece) (rest : List (List Piece)) :
      Turn ⟨(.text s :: ps) :: rest⟩ (some (.text s)) ⟨ps :: rest⟩
  | value (v : Value) (style : Style) (ps : List Piece) (rest : List (List Piece)) :
      Turn ⟨(.value v style :: ps) :: rest⟩ (some (.value v style)) ⟨ps :: rest⟩
  | enter (qs ps : List Piece) (rest : List (List Piece)) :
      Turn ⟨(.nested qs :: ps) :: rest⟩ none ⟨qs :: ps :: rest⟩
  | leave (rest : List (List Piece)) : Turn ⟨[] :: rest⟩ none ⟨rest⟩

/-- So many turns go past these leaves. -/
inductive Run : Walk → Nat → List Fragment → Walk → Prop where
  | refl (w : Walk) : Run w 0 [] w
  | turn {w next after : Walk} {f? : Option Fragment} {n : Nat} {fs : List Fragment}
      (hturn : w.Turn f? next) (hrun : Run next n fs after) :
      Run w (n + 1) (f?.toList ++ fs) after

variable {w after : Walk} {f : Fragment} {f? : Option Fragment} {fs : List Fragment} {n : Nat}

/-- The leaf of a turn is the first that was still to come. -/
theorem Turn.leaves_eq (h : w.Turn f? after) : w.leaves = f?.toList ++ after.leaves := by
  cases h <;> simp [leaves, Piece.leavesIn, Piece.leaves]

/-- Going into a nested chain puts more on the stack, but leaves fewer turns. -/
theorem Turn.turns_eq (h : w.Turn f? after) : w.turns = after.turns + 1 := by
  cases h with
  | text s ps rest | value v style ps rest | enter qs ps rest =>
      simp only [turns, List.foldr_cons, Piece.turnsIn, Piece.turns]
      omega
  | leave rest =>
      simp only [turns, List.foldr_cons, Piece.turnsIn]
      omega

theorem end_or_turn (w : Walk) : w = ⟨[]⟩ ∨ ∃ f? after, w.Turn f? after := by
  match w with
  | ⟨[]⟩ => exact .inl rfl
  | ⟨[] :: rest⟩ => exact .inr ⟨_, _, .leave rest⟩
  | ⟨(.text s :: ps) :: rest⟩ => exact .inr ⟨_, _, .text s ps rest⟩
  | ⟨(.value v style :: ps) :: rest⟩ => exact .inr ⟨_, _, .value v style ps rest⟩
  | ⟨(.nested qs :: ps) :: rest⟩ => exact .inr ⟨_, _, .enter qs ps rest⟩

/-- What holds at the end and carries over from behind a turn to before it holds of every walk,
since the turns run out. -/
@[elab_as_elim]
theorem turn_induction {motive : Walk → Prop} (done : motive ⟨[]⟩)
    (turn : ∀ {w after : Walk} {f? : Option Fragment}, w.Turn f? after → motive after → motive w)
    (w : Walk) : motive w := by
  rcases end_or_turn w with rfl | ⟨f?, after, hturn⟩
  · exact done
  · have hless : after.turns < w.turns := by
      rw [hturn.turns_eq]
      exact Nat.lt_succ_self after.turns
    exact turn hturn (turn_induction done turn after)
  termination_by w.turns

theorem Run.turns_eq (h : w.Run n fs after) : w.turns = n + after.turns := by
  induction h with
  | refl w => rw [Nat.zero_add]
  | turn hturn _ ih => rw [hturn.turns_eq, ih, Nat.add_right_comm]

/-- Turn by turn a walk comes to its end, past all its leaves. -/
theorem run_turns (w : Walk) : w.Run w.turns w.leaves ⟨[]⟩ := by
  induction w using turn_induction with
  | done => exact .refl _
  | turn hturn ih =>
      rw [hturn.turns_eq, hturn.leaves_eq]
      exact .turn hturn ih

/-! ## What the walk returns -/

theorem Turn.next?_of_none (h : w.Turn none after) : w.next? = after.next? := by
  cases h <;> rw [next?]

theorem Turn.next?_of_some (h : w.Turn (some f) after) : w.next? = some (f, after) := by
  cases h <;> rw [next?]

theorem next?_end : next? ⟨[]⟩ = none := by rw [next?]

/-- Turns that go past no leaf make no difference to the next one. -/
theorem Run.next?_eq (h : w.Run n [] after) : w.next? = after.next? := by
  generalize hfs : [] = fs at h
  induction h with
  | refl w => rfl
  | @turn w next after f? n fs hturn _ ih =>
      obtain ⟨hf, rfl⟩ := List.append_eq_nil_iff.mp hfs.symm
      obtain rfl : f? = none := by simpa using hf
      exact hturn.next?_of_none.trans (ih rfl)

/-- The next leaf is that of the first turn that goes past one. -/
theorem next?_eq_some_iff :
    w.next? = some (f, after) ↔ ∃ n before, w.Run n [] before ∧ before.Turn (some f) after := by
  constructor
  · intro h
    induction w using turn_induction with
    | done => cases next?_end.symm.trans h
    | @turn w next f? hturn ih =>
        cases f? with
        | some g =>
            obtain ⟨rfl, rfl⟩ := Prod.mk.inj (Option.some.inj (hturn.next?_of_some.symm.trans h))
            exact ⟨0, w, .refl w, hturn⟩
        | none =>
            obtain ⟨n, before, hrun, hleaf⟩ := ih (hturn.next?_of_none.symm.trans h)
            exact ⟨n + 1, before, .turn hturn hrun, hleaf⟩
  · rintro ⟨n, before, hrun, hleaf⟩
    exact hrun.next?_eq.trans hleaf.next?_of_some

theorem toList_of_next?_eq_none (h : w.next? = none) : w.toList = [] := by
  rw [toList]
  split
  · rfl
  · next hw => cases h.symm.trans hw

theorem toList_of_next?_eq_some (h : w.next? = some (f, after)) :
    w.toList = f :: after.toList := by
  rw [toList]
  split
  · next hw => cases h.symm.trans hw
  · next hw =>
    obtain ⟨rfl, rfl⟩ := Prod.mk.inj (Option.some.inj (h.symm.trans hw))
    rfl

theorem toList_congr {v : Walk} (h : v.next? = w.next?) : v.toList = w.toList := by
  cases hw : w.next? with
  | none => rw [toList_of_next?_eq_none hw, toList_of_next?_eq_none (h.trans hw)]
  | some next => rw [toList_of_next?_eq_some hw, toList_of_next?_eq_some (h.trans hw)]

theorem Turn.toList_eq (h : w.Turn f? after) : w.toList = f?.toList ++ after.toList := by
  cases f? with
  | none => exact toList_congr h.next?_of_none
  | some f => exact toList_of_next?_eq_some h.next?_of_some

theorem Run.toList_eq (h : w.Run n fs after) : w.toList = fs ++ after.toList := by
  induction h with
  | refl w => rfl
  | turn hturn _ ih => rw [hturn.toList_eq, ih, List.append_assoc]

theorem toList_eq_leaves (w : Walk) : w.toList = w.leaves := by
  rw [(run_turns w).toList_eq, toList_of_next?_eq_none next?_end, List.append_nil]

theorem next?_eq_none_iff : w.next? = none ↔ w.leaves = [] := by
  rw [← toList_eq_leaves]
  constructor
  · exact toList_of_next?_eq_none
  · intro h
    cases hnext : w.next? with
    | none => rfl
    | some next => cases (toList_of_next?_eq_some hnext).symm.trans h

end Walk

namespace Chain

/-! ## The leaves of a chain -/

/-- The leaves of the parts, from left to right. -/
def leaves (c : Chain) : List Fragment := Piece.leavesIn c.pieces

theorem leaves_walk (c : Chain) : c.walk.leaves = c.leaves := by
  simp [walk, Walk.leaves, leaves]

theorem fragments_eq_leaves (c : Chain) : c.fragments = c.leaves :=
  (Walk.toList_eq_leaves c.walk).trans c.leaves_walk

theorem isEmpty_iff (c : Chain) : c.isEmpty ↔ c.leaves = [] := by
  rw [isEmpty, Option.isNone_iff_eq_none, Walk.next?_eq_none_iff, leaves_walk]

@[simp]
theorem fragments_literal (v : Value) (style : Style) :
    (literal v style).fragments = [.value v style] := fragments_eq_leaves _

@[simp]
theorem fragments_application (operands : List Chain) (name : String) :
    (application operands name).fragments = operands.flatMap fragments ++ [.text name] := by
  have hfragments : fragments = leaves := funext fragments_eq_leaves
  have hnested (c : Chain) : (Piece.nested c.pieces).leaves = c.leaves := rfl
  rw [hfragments, leaves, application, Piece.leavesIn_eq_flatMap, List.flatMap_append,
    List.flatMap_map]
  simp only [hnested]
  rfl

@[simp]
theorem rendered_literal (v : Value) (style : Style) :
    (literal v style).rendered = [v.format style] := by
  rw [rendered, fragments_literal]
  rfl

@[simp]
theorem rendered_application (operands : List Chain) (name : String) :
    (application operands name).rendered = operands.flatMap rendered ++ [name] := by
  rw [rendered, fragments_application, List.map_append, List.map_flatMap]
  rfl

/-- A walk through a chain goes on by turns from leaf to leaf, and ends after so many turns as it
takes to go through every part. What it yields are the leaves from left to right; there are none
where it is called empty, and those of an application are those of the operands and then its
name. -/
theorem walk_flattens (c : Chain) :
    (∀ w f after, Walk.next? w = some (f, after) ↔
        ∃ n before, w.Run n [] before ∧ before.Turn (some f) after) ∧
      c.walk.Run c.walk.turns c.leaves ⟨[]⟩ ∧
      (∀ n fs w, c.walk.Run n fs w → n ≤ c.walk.turns) ∧
      c.fragments = c.leaves ∧
      (c.isEmpty ↔ c.leaves = []) ∧
      ∀ operands name,
        (application operands name).fragments = operands.flatMap fragments ++ [.text name] := by
  refine ⟨fun _ _ _ => Walk.next?_eq_some_iff, ?_, fun n fs w h => ?_, c.fragments_eq_leaves,
    c.isEmpty_iff, fragments_application⟩
  · rw [← leaves_walk]
    exact Walk.run_turns c.walk
  · rw [h.turns_eq]
    exact Nat.le_add_right n w.turns

end Chain

end ReversePolish
