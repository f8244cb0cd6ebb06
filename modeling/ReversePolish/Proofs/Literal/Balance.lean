import ReversePolish.Proofs.Literal.Bracket
import ReversePolish.Proofs.Literal.Textual
import ReversePolish.Proofs.Token.Parts

/-! # The brackets of a token are balanced

The scanner counts brackets to any depth, and the reader of literals once more down to the rows of
a matrix. What the scanner takes for a token the reader never finds unbalanced: it may complain of
what the brackets enclose, but not that one is missing. -/

namespace ReversePolish

/-! ## Balanced texts -/

namespace Token

/-- Behind brackets that are open, the text closes these and its own, and never more than are
open. -/
structure Balances (opened : ℤ) (cs : List Char) : Prop where
  nonneg : ∀ front, front <+: cs → 0 ≤ opened + depth front
  closes : opened + depth cs = 0

theorem depth_append (cs more : List Char) : depth (cs ++ more) = depth cs + depth more := by
  simp only [depth, List.count_append]
  omega

theorem depth_of_not_isBracket {cs : List Char} (h : ∀ c ∈ cs, isBracket c = false) :
    depth cs = 0 := by
  induction cs with
  | nil => rfl
  | cons c cs ih =>
      obtain ⟨hc, hcs⟩ := List.forall_mem_cons.mp h
      obtain ⟨hopen, hclose⟩ := isBracket_eq_false_iff.mp hc
      rw [depth_cons, ih hcs, depth_singleton hopen hclose, Int.add_zero]

/-- One character closes one bracket at most. -/
theorem depth_singleton_neg {c : Char} (h : depth [c] < 0) : c = ']' := by
  by_contra hclose
  by_cases hopen : c = '['
  · subst hopen
    exact absurd h (by decide)
  · rw [depth_singleton hopen hclose] at h
    exact absurd h (by decide)

theorem neg_one_le_depth_singleton (c : Char) : -1 ≤ depth [c] := by
  by_cases hneg : depth [c] < 0
  · obtain rfl := depth_singleton_neg hneg
    decide
  · omega

variable {opened : ℤ} {cs : List Char}

theorem balances_nil : Balances opened [] ↔ opened = 0 := by
  constructor
  · intro h
    simpa using h.closes
  · rintro rfl
    exact ⟨fun front hfront => by simp [List.prefix_nil.mp hfront], rfl⟩

theorem balances_cons {c : Char} :
    Balances opened (c :: cs) ↔ 0 ≤ opened ∧ Balances (opened + depth [c]) cs := by
  constructor
  · intro h
    refine ⟨by simpa using h.nonneg [] List.nil_prefix, fun front hfront => ?_, ?_⟩
    · have hcons := h.nonneg (c :: front) (List.cons_prefix_cons.mpr ⟨rfl, hfront⟩)
      rwa [depth_cons, ← Int.add_assoc] at hcons
    · have hcloses := h.closes
      rwa [depth_cons, ← Int.add_assoc] at hcloses
  · rintro ⟨hopened, h⟩
    refine ⟨fun front hfront => ?_, ?_⟩
    · rcases List.prefix_cons_iff.mp hfront with rfl | ⟨front, rfl, htail⟩
      · simpa using hopened
      · rw [depth_cons, ← Int.add_assoc]
        exact h.nonneg front htail
    · rw [depth_cons, ← Int.add_assoc]
      exact h.closes

/-- Blanks at the ends are no brackets. -/
theorem Balances.trim (h : Balances opened cs) : Balances opened (Text.trim cs) := by
  obtain ⟨before, after, hcs, hbefore, hafter⟩ := Text.exists_trim cs
  have hbefore := depth_of_not_isBracket fun c hc => isBracket_of_isBlank (hbefore c hc)
  have hafter := depth_of_not_isBracket fun c hc => isBracket_of_isBlank (hafter c hc)
  refine ⟨fun front hfront => ?_, ?_⟩
  · have hprefix : before ++ front <+: cs := by
      rw [hcs, List.append_assoc]
      exact (List.prefix_append_right_inj before).mpr (hfront.trans (List.prefix_append _ after))
    have hnonneg := h.nonneg _ hprefix
    rwa [depth_append, hbefore, Int.zero_add] at hnonneg
  · have hcloses := h.closes
    rwa [hcs, depth_append, depth_append, hbefore, hafter, Int.zero_add, Int.add_zero] at hcloses

/-! ## Tokens in brackets -/

/-- Inside a token in brackets there is always one open: the count changes by one at a time, so it
does not fall below zero without being zero. -/
theorem IsBracketed.depth_pos (h : IsBracketed cs) {front : List Char} (hfront : front <+: cs)
    (hne : front ≠ []) (hproper : front ≠ cs) : 0 < depth front := by
  induction front using List.reverseRecOn with
  | nil => exact absurd rfl hne
  | append_singleton front c ih =>
      have hnonzero := h.inside _ hfront hne hproper
      by_cases hfirst : front = []
      · subst hfirst
        obtain rfl : c = '[' := by
          obtain ⟨rest, rfl⟩ := hfront
          simpa using h.opens
        decide
      · have hbefore : front <+: cs := (List.prefix_append front [c]).trans hfront
        have hshorter : front ≠ cs := by
          rintro rfl
          exact absurd hfront.length_le (by simp)
        have hpos := ih hbefore hfirst hshorter
        have hstep := neg_one_le_depth_singleton c
        rw [depth_append] at hnonzero ⊢
        omega

theorem IsBracketed.exists_balances (h : IsBracketed cs) :
    ∃ body, cs = '[' :: (body ++ [']']) ∧ Balances 0 body := by
  obtain ⟨rest, rfl⟩ := List.head?_eq_some_iff.mp h.opens
  rcases List.eq_nil_or_concat rest with rfl | ⟨body, c, rfl⟩
  · exact absurd h.closes (by decide)
  · rw [List.concat_eq_append] at h ⊢
    have hpos {front : List Char} (hfront : front <+: body) : 0 < 1 + depth front := by
      rw [← depth_open_cons]
      refine h.depth_pos ?_ (List.cons_ne_nil _ _) fun heq => ?_
      · exact List.cons_prefix_cons.mpr ⟨rfl, hfront.trans (List.prefix_append body [c])⟩
      · have hlength := hfront.length_le
        simp [(List.cons.inj heq).2] at hlength
    have hcloses := h.closes
    rw [depth_open_cons, depth_append] at hcloses
    have hbody := hpos (List.prefix_refl body)
    obtain rfl : c = ']' := depth_singleton_neg (by omega)
    have hlast : depth [']'] = -1 := by decide
    refine ⟨body, rfl, fun front hfront => ?_, by omega⟩
    have hfrontPos := hpos hfront
    omega

theorem SplitsInto.isBracketed {parts : List Part} (h : SplitsInto cs parts) {offset : ℕ}
    {t : Token} (ht : t ∈ tokensAt offset parts) (hopen : t.text.toList.head? = some '[') :
    IsBracketed t.text.toList := by
  induction h generalizing offset with
  | nil => cases ht
  | @cons part rest parts hpart h ih =>
      rcases mem_tokensAt_cons ht with ⟨htext, -⟩ | ht
      · rw [htext] at hopen ⊢
        cases hpart with
        | @blank c _ hc =>
            obtain rfl : c = '[' := by simpa [Part.text] using hopen
            exact absurd hc (by decide)
        | bracketed hcs => exact hcs
        | bare _ hbare _ => exact absurd rfl (hbare '[' (List.mem_of_mem_head? hopen)).2.1
      · exact ih ht

end Token

namespace Literal

open Outcome Text Token

/-! ## The rows of a matrix -/

/-- The brackets that are open behind what has been read of a row. -/
def openBrackets : Option (List Char) → ℤ
  | none => 0
  | some _ => 1

/-- A balanced text is refused for what stands between its brackets only. -/
theorem splitRows_eq_error {open? : Option (List Char)} {cs : List Char} {reason : ParseReason}
    (h : splitRows open? cs = .error reason) (hbalances : Balances (openBrackets open?) cs) :
    reason = .nesting ∨ reason = .rowBrackets := by
  induction open?, cs using splitRows.induct with
  | case1 => cases h
  | case2 row => cases balances_nil.mp hbalances
  | case3 cs ih =>
      rw [splitRows, if_pos rfl] at h
      exact ih h (balances_cons.mp hbalances).2
  | case4 cs =>
      -- The bracket would close one more than are open.
      obtain ⟨-, htail⟩ := balances_cons.mp hbalances
      exact absurd (htail.nonneg [] List.nil_prefix) (by decide)
  | case5 c cs hopen hclose hsep ih =>
      rw [splitRows, if_neg hopen, if_neg hclose, if_pos hsep] at h
      obtain ⟨-, htail⟩ := balances_cons.mp hbalances
      rw [depth_singleton hopen hclose] at htail
      exact ih h htail
  | case6 c cs hopen hclose hsep =>
      rw [splitRows, if_neg hopen, if_neg hclose, if_neg hsep] at h
      exact .inr (Except.error.inj h).symm
  | case7 row cs =>
      rw [splitRows, if_pos rfl] at h
      exact .inl (Except.error.inj h).symm
  | case8 row cs _ ih =>
      rw [splitRows, if_neg (by decide), if_pos rfl, map_eq_error] at h
      exact ih h (balances_cons.mp hbalances).2
  | case9 row c cs hopen hclose ih =>
      rw [splitRows, if_neg hopen, if_neg hclose] at h
      obtain ⟨-, htail⟩ := balances_cons.mp hbalances
      rw [depth_singleton hopen hclose] at htail
      exact ih h htail

theorem inside_of_mem_splitRows {cs : List Char} {rows : List (List Char)}
    (h : splitRows none cs = .ok rows) : ∀ row ∈ rows, ∃ body, inside row = .ok body := by
  have hgoes := splitRows_eq_ok.mp h
  clear h
  induction hgoes with
  | nil => exact List.forall_mem_nil _
  | cons _ hrow _ ih =>
      obtain ⟨-, body, hbody, -⟩ := hrow
      exact List.forall_mem_cons.mpr ⟨⟨body, inside_eq_ok.mpr hbody⟩, ih⟩

end Literal

/-! ## What reading complains of -/

/-- Whether the complaint is that brackets do not match. -/
def ParseReason.isUnbalanced : ParseReason → Bool
  | .brackets | .closingBracket | .openBracket => true
  | _ => false

/-- Whether the error complains of something else than brackets that do not match. -/
def Error.SparesBrackets : Error → Prop
  | .parse _ reason => reason.isUnbalanced = false
  | _ => True

theorem Error.IsNumeric.sparesBrackets {err : Error} (h : err.IsNumeric) : err.SparesBrackets := by
  unfold IsNumeric at h
  split at h
  · rfl
  · rfl
  · rfl
  · cases h

namespace Literal

open Outcome Text Token

theorem components_sparesBrackets (body : List Char) :
    Raises Error.SparesBrackets (components body) :=
  (components_raises body).mono fun _ => Error.IsNumeric.sparesBrackets

theorem vector_sparesBrackets (text : String) (body : List Char) :
    Raises Error.SparesBrackets (vector text body) := by
  refine (components_sparesBrackets body).bind fun xs => ?_
  split
  · trivial
  · trivial

theorem matrix_sparesBrackets (text : String) {body : List Char} (h : Balances 0 body) :
    Raises Error.SparesBrackets (matrix text body) := by
  unfold matrix
  cases hsplit : splitRows none body with
  | error reason =>
      rcases splitRows_eq_error hsplit h with rfl | rfl
      · rfl
      · rfl
  | ok rows =>
      have hrows : Raises Error.SparesBrackets (rows.mapM rowComponents) := by
        refine .mapM fun row hrow => ?_
        obtain ⟨body, hbody⟩ := inside_of_mem_splitRows hsplit row hrow
        rw [rowComponents, hbody]
        exact components_sparesBrackets body
      refine hrows.bind fun rows => ?_
      split
      · trivial
      split
      · trivial
      · trivial

theorem bracketed_sparesBrackets {body : List Char} (h : Balances 0 body) :
    Raises Error.SparesBrackets (bracketed ('[' :: (body ++ [']']))) := by
  rw [bracketed, inside_eq_ok.mpr rfl]
  exact .ite (matrix_sparesBrackets _ h.trim) (vector_sparesBrackets _ _)

/-- A token that begins with a bracket is enclosed in brackets, and what they enclose is balanced.
It splits into rows that are enclosed in brackets, or fails to because a bracket is too deep or a
row has none; and no error of the reader blames the brackets for not matching. -/
theorem tokens_are_balanced {line : String} {tokens : List Token}
    (hline : scanLine line = .ok tokens) {t : Token} (ht : t ∈ tokens)
    (hopen : t.text.toList.head? = some '[') :
    (∃ body, inside t.text.toList = .ok body ∧ Balances 0 (trim body) ∧
        (∀ reason, splitRows none (trim body) = .error reason →
          reason = .nesting ∨ reason = .rowBrackets) ∧
        ∀ rows, splitRows none (trim body) = .ok rows →
          ∀ row ∈ rows, ∃ enclosed, inside row = .ok enclosed) ∧
      ∀ text reason, read t.text = .error (.parse text reason) →
        reason ≠ .brackets ∧ reason ≠ .closingBracket ∧ reason ≠ .openBracket := by
  obtain ⟨parts, hparts, rfl⟩ := scan_eq_ok_iff.mp hline
  obtain ⟨body, htext, hbalances⟩ := (hparts.isBracketed ht hopen).exists_balances
  refine ⟨⟨body, inside_eq_ok.mpr htext, hbalances.trim,
    fun reason h => splitRows_eq_error h hbalances.trim, fun rows => inside_of_mem_splitRows⟩, ?_⟩
  intro text reason herror
  rw [read_eq_bracketed hopen, map_eq_error, htext] at herror
  have hspares : reason.isUnbalanced = false :=
    (bracketed_sparesBrackets hbalances).of_eq_error herror
  refine ⟨?_, ?_, ?_⟩
  · rintro rfl
    cases hspares
  · rintro rfl
    cases hspares
  · rintro rfl
    cases hspares

/-- A bracket too many inside a row does not make the brackets unbalanced. -/
theorem tokens_are_balanced_of_deep_row :
    let t : Token := ⟨"[[1, [2]], [3, 4]]", 2⟩
    scanLine "1 [[1, [2]], [3, 4]] det" = .ok [⟨"1", 0⟩, t, ⟨"det", 21⟩] ∧
      t.text.toList.head? = some '[' ∧
      read t.text = .error (.parse t.text .nesting) ∧
      ∃ body, inside t.text.toList = .ok body ∧ Balances 0 (trim body) := by
  intro t
  have hline : scanLine "1 [[1, [2]], [3, 4]] det" = .ok [⟨"1", 0⟩, t, ⟨"det", 21⟩] := by
    decide +kernel
  have hopen : t.text.toList.head? = some '[' := by decide
  have hread : (read t.text).map (fun _ => ()) = .error (.parse t.text .nesting) := by
    decide +kernel
  obtain ⟨⟨body, hinside, hbalances, -⟩, -⟩ :=
    tokens_are_balanced hline (List.mem_cons_of_mem _ List.mem_cons_self) hopen
  exact ⟨hline, hopen, map_eq_error.mp hread, body, hinside, hbalances⟩

end Literal

end ReversePolish
