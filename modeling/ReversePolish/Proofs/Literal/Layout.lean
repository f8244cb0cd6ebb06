import ReversePolish.Proofs.Literal.Words
import ReversePolish.Proofs.Text.Lists

/-! # The grammar of vectors and matrices

A vector is a list of numbers in brackets, and a matrix a list of such lists. The strict layout is
that of the grammar, with one comma or blanks between two parts. The loose one allows for more
commas than are needed, and for none between two rows. -/

namespace ReversePolish.Literal

open Outcome Text

/-! ## The grammar -/

/-- A number literal and the scalar that it stands for. -/
def IsScalar (text : List Char) (s : Scalar) : Prop :=
  ∃ l, IsNumber (splitSign text).1 (splitSign text).2 l ∧ l.value = .scalar s

/-- A number literal, as a real. -/
def IsComponent (text : List Char) (x : Float) : Prop := ∃ s, IsScalar text s ∧ x = s.toReal

/-- What may stand around the components of a vector and around the rows of a matrix. -/
structure Layout where
  components : Spacing
  rows : Spacing

namespace Layout

/-- Numbers in brackets. -/
def IsRow (lay : Layout) (text : List Char) (xs : List Float) : Prop :=
  ∃ inside, text = '[' :: (inside ++ [']']) ∧ Lists lay.components IsComponent inside xs

/-- The vector or matrix that a text stands for: a list of numbers or a list of such lists in
brackets. -/
inductive Denotes (lay : Layout) (text : List Char) : Value → Prop where
  | vector {d : Dimension} {v : RealVector d.size} (h : lay.IsRow text v.toList) :
      Denotes lay text (.vector d v)
  | matrix {d : Dimension} {m : SquareMatrix d.size} {inside : List Char}
      (htext : text = '[' :: (inside ++ [']'])) (h : Lists lay.rows lay.IsRow inside m.toRows) :
      Denotes lay text (.matrix d m)

def IsBlanks (gap : List Char) : Prop := ∀ c ∈ gap, Text.isBlank c

/-- One comma with blanks around it or not, or else a blank or more. -/
inductive IsSeparation : List Char → Prop where
  | comma {before after : List Char} (hbefore : IsBlanks before) (hafter : IsBlanks after) :
      IsSeparation (before ++ ',' :: after)
  | blanks {gap : List Char} (hne : gap ≠ []) (hgap : IsBlanks gap) : IsSeparation gap

/-- Blanks inside the brackets, and a separation between two parts. -/
def strictSpacing : Spacing where
  front := IsBlanks
  between := IsSeparation
  back := IsBlanks

/-- The layout of the grammar. -/
def strict : Layout where
  components := strictSpacing
  rows := strictSpacing

/-- Any number of commas among the blanks, and rows with nothing between them; only in front of the
first row no comma may stand. -/
def loose : Layout where
  components := .separated isSeparator
  rows :=
    { front := IsBlanks
      between := fun gap => ∀ c ∈ gap, isSeparator c
      back := fun gap => ∀ c ∈ gap, isSeparator c }

theorem isSeparator_of_isBlank {c : Char} (h : Text.isBlank c) : isSeparator c := by
  simp [isSeparator, h]

theorem IsSeparation.forall_isSeparator {gap : List Char} (h : IsSeparation gap) :
    gap ≠ [] ∧ ∀ c ∈ gap, isSeparator c := by
  cases h with
  | comma hbefore hafter =>
      refine ⟨by simp, List.forall_mem_append.mpr ⟨?_, List.forall_mem_cons.mpr ⟨rfl, ?_⟩⟩⟩
      · exact fun c hc => isSeparator_of_isBlank (hbefore c hc)
      · exact fun c hc => isSeparator_of_isBlank (hafter c hc)
  | blanks hne hgap => exact ⟨hne, fun c hc => isSeparator_of_isBlank (hgap c hc)⟩

theorem components_strict_within : strict.components.Within loose.components where
  front _ h c hc := isSeparator_of_isBlank (h c hc)
  between _ h := h.forall_isSeparator
  back _ h c hc := isSeparator_of_isBlank (h c hc)

theorem rows_strict_within : strict.rows.Within loose.rows where
  front _ h := h
  between _ h := h.forall_isSeparator.2
  back _ h c hc := isSeparator_of_isBlank (h c hc)

theorem IsRow.of_strict {text : List Char} {xs : List Float} (h : strict.IsRow text xs) :
    loose.IsRow text xs := by
  obtain ⟨inside, htext, h⟩ := h
  exact ⟨inside, htext, h.mono components_strict_within fun _ _ _ hx => hx⟩

theorem Denotes.of_strict {text : List Char} {v : Value} (h : strict.Denotes text v) :
    loose.Denotes text v := by
  cases h with
  | vector h => exact .vector h.of_strict
  | matrix htext h => exact .matrix htext (h.mono rows_strict_within fun _ _ _ => IsRow.of_strict)

theorem IsRow.head?_eq {lay : Layout} {text : List Char} {xs : List Float}
    (h : lay.IsRow text xs) : text.head? = some '[' := by
  obtain ⟨inside, rfl, -⟩ := h
  rfl

theorem Denotes.head?_eq {lay : Layout} {text : List Char} {v : Value} (h : lay.Denotes text v) :
    text.head? = some '[' := by
  cases h with
  | vector h => exact h.head?_eq
  | matrix htext _ => rw [htext, List.head?_cons]

end Layout

open Layout

/-! ## Components -/

theorem component_eq_ok {part : List Char} {x : Float} :
    component part = .ok x ↔ IsComponent part x := by
  simp only [component, bind_eq_ok, IsComponent, IsScalar]
  constructor
  · rintro ⟨l?, hnumber, h⟩
    split at h
    · next s _ => exact ⟨s, ⟨_, (number_eq_some rfl).mp hnumber, rfl⟩, (Except.ok.inj h).symm⟩
    · cases h
  · rintro ⟨s, ⟨⟨value, style⟩, hnumber, rfl⟩, rfl⟩
    exact ⟨_, (number_eq_some rfl).mpr hnumber, rfl⟩

theorem components_eq_ok {body : List Char} {xs : List Float} :
    components body = .ok xs ↔ List.Forall₂ IsComponent (fields isSeparator body) xs := by
  simp only [components, mapM_eq_ok, component_eq_ok]

theorem IsComponent.mem {text : List Char} {x : Float} (h : IsComponent text x) :
    text ≠ [] ∧ ∀ c ∈ text, isSeparator c = false := by
  obtain ⟨s, ⟨l, hnumber, -⟩, -⟩ := h
  have hnumber := (number_eq_some rfl).mpr hnumber
  obtain ⟨hne, hbare⟩ := isBare_of_number hnumber
  refine ⟨hne, fun c hc => ?_⟩
  have hblank : Text.isBlank c = false := by
    simpa using (Token.isBare_iff.mp (hbare c hc)).1
  have hcomma : c ≠ ',' := by
    rintro rfl
    exact absurd (mem_of_number hnumber ',' hc) (by decide)
  simp [isSeparator, hblank, hcomma]

theorem lists_components_iff {inside : List Char} {xs : List Float} :
    Lists loose.components IsComponent inside xs ↔ xs ≠ [] ∧ components inside = .ok xs := by
  rw [components_eq_ok]
  exact lists_separated_iff fun _ _ => IsComponent.mem

/-! ## Commas -/

theorem count_comma_of_forall {cs : List Char} (h : ∀ c ∈ cs, c ≠ ',') : cs.count ',' = 0 :=
  List.count_eq_zero.mpr fun hmem => h ',' hmem rfl

theorem Layout.IsBlanks.count_comma {gap : List Char} (h : IsBlanks gap) : gap.count ',' = 0 := by
  refine count_comma_of_forall ?_
  rintro c hc rfl
  exact absurd (h ',' hc) (by decide)

theorem Layout.IsSeparation.count_comma_le {gap : List Char} (h : IsSeparation gap) :
    gap.count ',' ≤ 1 := by
  cases h with
  | comma hbefore hafter => simp [hbefore.count_comma, hafter.count_comma]
  | blanks _ hgap => simp [hgap.count_comma]

theorem IsComponent.count_comma {text : List Char} {x : Float} (h : IsComponent text x) :
    text.count ',' = 0 := by
  refine count_comma_of_forall ?_
  rintro c hc rfl
  exact absurd (h.mem.2 ',' hc) (by decide)

theorem count_comma_le_of_goesOn {cs : List Char} {xs : List Float}
    (h : GoesOn strictSpacing IsComponent cs xs) : cs.count ',' ≤ xs.length := by
  induction h with
  | nil hgap => simp [hgap.count_comma]
  | cons hgap hx h ih =>
      have hone := hgap.count_comma_le
      simp only [List.count_append, hx.count_comma, List.length_cons]
      omega

/-- In the grammar a vector has fewer commas than components. -/
theorem count_comma_lt_of_lists {inside : List Char} {xs : List Float}
    (h : Lists strictSpacing IsComponent inside xs) : inside.count ',' < xs.length := by
  cases h with
  | cons hgap hx h =>
      have hrest := count_comma_le_of_goesOn h
      simp only [List.count_append, hgap.count_comma, hx.count_comma, List.length_cons]
      omega

end ReversePolish.Literal
