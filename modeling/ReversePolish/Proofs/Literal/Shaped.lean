import ReversePolish.Proofs.Decimal.General
import ReversePolish.Proofs.Literal.Bracket

/-! # Written vectors and matrices are read again

Their texts are of the strict layout: a comma and a blank stand between two components and between
two rows. What a component comes back as is up to its own text alone. -/

namespace ReversePolish

namespace Text

open Literal.Layout

variable {α : Type} {part : List Char → α → Prop}

/-- Behind a part the list goes on with a comma and a blank. -/
theorem goesOn_of_lists {rest : List Char} {as : List α} (h : Lists strictSpacing part rest as) :
    GoesOn strictSpacing part (',' :: ' ' :: rest) as := by
  cases h with
  | @cons gap text rest a as hgap ha h =>
      have hblanks : IsBlanks (' ' :: gap) := List.forall_mem_cons.mpr ⟨by decide, hgap⟩
      have hseparation : IsSeparation ([] ++ ',' :: (' ' :: gap)) :=
        .comma (List.forall_mem_nil _) hblanks
      exact .cons hseparation ha h

theorem lists_intercalate {texts : List String} {as : List α} (hne : as ≠ [])
    (h : List.Forall₂ (fun text a => part text.toList a) texts as) :
    Lists strictSpacing part (", ".intercalate texts).toList as := by
  induction h with
  | nil => exact absurd rfl hne
  | @cons text a texts as ha h ih =>
      have hfront : strictSpacing.front [] := List.forall_mem_nil _
      cases h with
      | nil =>
          have hone : Lists strictSpacing part ([] ++ (text.toList ++ [])) [a] :=
            .cons hfront ha (.nil (List.forall_mem_nil _))
          simpa using hone
      | @cons next b texts bs hb h =>
          have hmore : Lists strictSpacing part
              ([] ++ (text.toList ++ ',' :: ' ' :: (", ".intercalate (next :: texts)).toList))
              (a :: b :: bs) := .cons hfront ha (goesOn_of_lists (ih (List.cons_ne_nil _ _)))
          simpa [String.intercalate_cons_cons] using hmore

end Text

namespace Literal

open Outcome Text Layout

/-! ## Components -/

/-- Whether the written number is read as a scalar whose value as a real is the second one. -/
def Rereads (precision : ℕ) (x y : Float) : Prop :=
  ∃ l s, read (Decimal.general precision x) = .ok (some l) ∧ l.value = .scalar s ∧ y = s.toReal

theorem rereads_of_isComponent {p : ℕ} {x y : Float}
    (h : IsComponent (Decimal.general p x).toList y) : Rereads p x y := by
  obtain ⟨s, ⟨l, hnumber, hs⟩, hy⟩ := h
  exact ⟨l, s, read_of_number ((number_eq_some rfl).mpr hnumber), hs, hy⟩

theorem exists_isComponent_general {x : Float} (h : Binary64.isFinite x) (p : ℕ) :
    ∃ y, IsComponent (Decimal.general p x).toList y := by
  obtain ⟨l, hnumber⟩ := Decimal.GeneralFormat.number_general h p
  have hnumber := (number_eq_some rfl).mp hnumber
  obtain ⟨s, hs⟩ : ∃ s, l.value = .scalar s := by
    cases hnumber with
    | @integer _ n =>
        simp only [Value.ofInt]
        split
        · exact ⟨_, rfl⟩
        · exact ⟨_, rfl⟩
    | real => exact ⟨_, rfl⟩
  exact ⟨s.toReal, s, ⟨l, hnumber, hs⟩, rfl⟩

/-! ## Rows -/

theorem exists_forall₂ {α β : Type} {r : α → β → Prop} {as : List α} (h : ∀ a ∈ as, ∃ b, r a b) :
    ∃ bs, List.Forall₂ r as bs := by
  induction as with
  | nil => exact ⟨[], .nil⟩
  | cons a as ih =>
      obtain ⟨⟨b, hb⟩, has⟩ := List.forall_mem_cons.mp h
      obtain ⟨bs, hbs⟩ := ih has
      exact ⟨b :: bs, .cons hb hbs⟩

/-- A row of finite numbers is written as a row, with as many components. -/
theorem exists_isRow_bracketed {d : Dimension} {xs : List Float} (hlength : xs.length = d.size)
    (hfinite : ∀ x ∈ xs, Binary64.isFinite x) (p : ℕ) :
    ∃ ys, ys.length = d.size ∧
      strict.IsRow (Value.bracketed (xs.map (Decimal.general p))).toList ys ∧
      List.Forall₂ (Rereads p) xs ys := by
  obtain ⟨ys, hys⟩ := exists_forall₂ fun x hx => exists_isComponent_general (hfinite x hx) p
  have hwidth : ys.length = d.size := hys.length_eq.symm.trans hlength
  have hlists := lists_intercalate (Dimension.ne_nil_of_length_eq hwidth)
    (List.forall₂_map_left_iff.mpr hys)
  refine ⟨ys, hwidth, ⟨_, ?_, hlists⟩, hys.imp fun _ _ => rereads_of_isComponent⟩
  simp [Value.bracketed]

/-! ## Vectors and matrices -/

theorem exists_denotes_vector {d : Dimension} {v : RealVector d.size} {style : Style}
    (hfinite : ∀ x ∈ v.toList, Binary64.isFinite x) :
    ∃ w : RealVector d.size,
      strict.Denotes ((Value.vector d v).format style).toList (.vector d w) ∧
      List.Forall₂ (Rereads style.digits) v.toList w.toList := by
  obtain ⟨ys, hwidth, hrow, hys⟩ := exists_isRow_bracketed v.length_toList hfinite style.digits
  obtain ⟨w, rfl⟩ := RealVector.exists_toList_eq hwidth
  exact ⟨w, .vector hrow, hys⟩

theorem exists_denotes_matrix {d : Dimension} {m : SquareMatrix d.size} {style : Style}
    (hfinite : ∀ row ∈ m.toRows, ∀ x ∈ row, Binary64.isFinite x) :
    ∃ w : SquareMatrix d.size,
      strict.Denotes ((Value.matrix d m).format style).toList (.matrix d w) ∧
      List.Forall₂ (List.Forall₂ (Rereads style.digits)) m.toRows w.toRows := by
  obtain ⟨rows, hrows⟩ := exists_forall₂ fun row hrow =>
    exists_isRow_bracketed (SquareMatrix.length_of_mem_toRows hrow) (hfinite row hrow) style.digits
  have hheight : rows.length = d.size := hrows.length_eq.symm.trans m.length_toRows
  obtain ⟨hsquare, -⟩ := (List.forall₂_and_left rows m.toRows).mp hrows.flip
  obtain ⟨w, rfl⟩ := SquareMatrix.exists_toRows_eq hheight hsquare
  have hlists := lists_intercalate (Dimension.ne_nil_of_length_eq hheight)
    (List.forall₂_map_left_iff.mpr (hrows.imp fun _ _ h => h.2.1))
  refine ⟨w, .matrix ?_ hlists, hrows.imp fun _ _ h => h.2.2⟩
  simp [Value.format, Value.bracketed]

/-- A vector or matrix of finite numbers is written as one token, and comes back as a value of its
kind, with the entries that the texts of its entries are read as. -/
theorem shaped_reads_back {v : Value} (hv : v.IsShaped)
    (hfinite : ∀ x ∈ v.entries, Binary64.isFinite x) (style : Style) :
    let text := v.format style
    Token.scanLine text = .ok [⟨text, 0⟩] ∧
      ∃ w, read text = .ok (some { value := w }) ∧ w.kind = v.kind ∧
        List.Forall₂ (Rereads style.digits) v.entries w.entries := by
  intro text
  obtain ⟨w, hdenotes, hkind, hentries⟩ : ∃ w, strict.Denotes text.toList w ∧ w.kind = v.kind ∧
      List.Forall₂ (Rereads style.digits) v.entries w.entries := by
    obtain ⟨d, v, rfl⟩ | ⟨d, m, rfl⟩ := hv
    · obtain ⟨w, hdenotes, hentries⟩ := exists_denotes_vector hfinite
      exact ⟨_, hdenotes, rfl, hentries⟩
    · have hfinite : ∀ row ∈ m.toRows, ∀ x ∈ row, Binary64.isFinite x := fun row hrow x hx =>
        hfinite x (List.mem_flatten.mpr ⟨row, hrow, hx⟩)
      obtain ⟨w, hdenotes, hentries⟩ := exists_denotes_matrix hfinite
      exact ⟨_, hdenotes, rfl, List.rel_flatten hentries⟩
  have hread : read text = .ok (some { value := w }) := by
    rw [read_eq_bracketed hdenotes.head?_eq, bracketed_of_denotes hdenotes.of_strict]
    rfl
  exact ⟨scanLine_of_read hread, w, hread, hkind, hentries⟩

/-- Among the entries are a negative zero and a number that takes an exponent and is rounded. -/
theorem shaped_reads_back_of_matrix :
    let v : Value := .matrix .two ⟨#[⟨#[0.5, -0.0], rfl⟩, ⟨#[1234.5, 3], rfl⟩], rfl⟩
    let text := "[[0.5, -0], [1.23e+03, 3]]"
    v.IsShaped ∧ (∀ x ∈ v.entries, Binary64.isFinite x) ∧ v.format { precision := some 3 } = text ∧
      Token.scanLine text = .ok [⟨text, 0⟩] ∧
      ∃ w, read text = .ok (some { value := w }) ∧ w.kind = .matrix .two ∧
        List.Forall₂ (Rereads 3) v.entries w.entries := by
  intro v text
  have hshaped : v.IsShaped := .inr ⟨_, _, rfl⟩
  have hfinite : ∀ x ∈ v.entries, Binary64.isFinite x := by decide +kernel
  have htext : v.format { precision := some 3 } = text := by decide +kernel
  have hback := shaped_reads_back hshaped hfinite { precision := some 3 }
  rw [htext] at hback
  exact ⟨hshaped, hfinite, htext, hback⟩

end Literal

end ReversePolish
