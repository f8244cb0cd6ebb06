import ReversePolish.Proofs.Literal.Layout

/-! # Splitting a matrix into rows

The rows are the parts of a list in which separators, or nothing, stand between the parts. Blanks
at the ends make no difference. -/

namespace ReversePolish.Literal

open Outcome Text Layout

/-- A row of a matrix as it stands in the text: no bracket stands between those at its ends. -/
def IsEnclosed (text row : List Char) : Prop :=
  text = row ∧ ∃ body, row = '[' :: (body ++ [']']) ∧ ∀ c ∈ body, Token.isBracket c = false

theorem not_bracket_of_isSeparator {c : Char} (h : isSeparator c) : c ≠ '[' ∧ c ≠ ']' := by
  constructor
  · rintro rfl
    exact absurd h (by decide)
  · rintro rfl
    exact absurd h (by decide)

variable {gap row rest cs : List Char} {rows : List (List Char)}

theorem splitRows_gap_append (h : ∀ c ∈ gap, isSeparator c) (rest : List Char) :
    splitRows none (gap ++ rest) = splitRows none rest := by
  induction gap with
  | nil => rfl
  | cons c gap ih =>
      obtain ⟨hc, hgap⟩ := List.forall_mem_cons.mp h
      obtain ⟨hopen, hclose⟩ := not_bracket_of_isSeparator hc
      simp [splitRows, hopen, hclose, hc, ih hgap]

theorem splitRows_some_append (hrow : ∀ c ∈ row, Token.isBracket c = false)
    (before rest : List Char) :
    splitRows (some before) (row ++ ']' :: rest) =
      (splitRows none rest).map ((before.reverse ++ (row ++ [']'])) :: ·) := by
  induction row generalizing before with
  | nil => simp [splitRows]
  | cons c row ih =>
      obtain ⟨hc, hrow⟩ := List.forall_mem_cons.mp hrow
      obtain ⟨hopen, hclose⟩ := Token.isBracket_eq_false_iff.mp hc
      simp [splitRows, hopen, hclose, ih hrow]

theorem splitRows_enclosed_append {text : List Char} (h : IsEnclosed text row)
    (rest : List Char) :
    splitRows none (text ++ rest) = (splitRows none rest).map (row :: ·) := by
  obtain ⟨rfl, body, rfl, hbody⟩ := h
  simpa [splitRows] using splitRows_some_append hbody ['['] rest

/-- An open row goes on without brackets up to the one that closes it. -/
theorem exists_of_splitRows_some {before : List Char}
    (h : splitRows (some before) cs = .ok rows) :
    ∃ row rest rows', cs = row ++ ']' :: rest ∧ (∀ c ∈ row, Token.isBracket c = false) ∧
      rows = (before.reverse ++ (row ++ [']'])) :: rows' ∧ splitRows none rest = .ok rows' := by
  induction cs generalizing before with
  | nil => cases h
  | cons c cs ih =>
      rw [splitRows] at h
      split at h
      · cases h
      next hopen =>
      split at h
      · next hclose =>
        obtain ⟨rows', hrows, rfl⟩ := map_eq_ok.mp h
        exact ⟨[], cs, rows', by simp [hclose], by simp, by simp [hclose], hrows⟩
      · next hclose =>
        obtain ⟨row, rest, rows', rfl, hrow, rfl, hrest⟩ := ih h
        refine ⟨c :: row, rest, rows', rfl, ?_, by simp, hrest⟩
        exact List.forall_mem_cons.mpr ⟨Token.isBracket_eq_false_iff.mpr ⟨hopen, hclose⟩, hrow⟩

/-- Between rows stand separators only, up to the next row. -/
theorem exists_of_splitRows_none (h : splitRows none cs = .ok rows) :
    ∃ gap after, cs = gap ++ after ∧ (∀ c ∈ gap, isSeparator c) ∧
      ((after = [] ∧ rows = []) ∨
        ∃ inside, after = '[' :: inside ∧ splitRows (some ['[']) inside = .ok rows) := by
  induction cs with
  | nil =>
      obtain rfl := Except.ok.inj h
      exact ⟨[], [], rfl, by simp, .inl ⟨rfl, rfl⟩⟩
  | cons c cs ih =>
      rw [splitRows] at h
      split at h
      · next hopen => exact ⟨[], c :: cs, rfl, by simp, .inr ⟨cs, by rw [hopen], by rwa [hopen] at h⟩⟩
      split at h
      · cases h
      split at h
      · next hsep =>
        obtain ⟨gap, after, rfl, hgap, hafter⟩ := ih h
        exact ⟨c :: gap, after, rfl, List.forall_mem_cons.mpr ⟨hsep, hgap⟩, hafter⟩
      · cases h

theorem splitRows_eq_ok :
    splitRows none cs = .ok rows ↔ GoesOn loose.rows IsEnclosed cs rows := by
  constructor
  · intro h
    induction rows generalizing cs with
    | nil =>
        obtain ⟨gap, after, rfl, hgap, ⟨rfl, -⟩ | ⟨inside, -, hinside⟩⟩ :=
          exists_of_splitRows_none h
        · rw [List.append_nil]
          exact .nil hgap
        · obtain ⟨row, rest, rows', -, -, hrows, -⟩ := exists_of_splitRows_some hinside
          cases hrows
    | cons row rows ih =>
        obtain ⟨gap, after, rfl, hgap, ⟨-, hrows⟩ | ⟨inside, rfl, hinside⟩⟩ :=
          exists_of_splitRows_none h
        · cases hrows
        · obtain ⟨body, rest, rows', rfl, hbody, hrows, hrest⟩ := exists_of_splitRows_some hinside
          obtain ⟨rfl, rfl⟩ := List.cons.inj hrows
          have hrow : IsEnclosed ('[' :: (body ++ [']'])) ('[' :: (body ++ [']'])) :=
            ⟨rfl, body, rfl, hbody⟩
          have hgoes : GoesOn loose.rows IsEnclosed _ _ := .cons hgap hrow (ih hrest)
          simpa using hgoes
  · intro h
    induction h with
    | nil hgap =>
        have hnil := splitRows_gap_append hgap []
        rwa [List.append_nil, splitRows] at hnil
    | cons hgap hrow h ih =>
        rw [splitRows_gap_append hgap, splitRows_enclosed_append hrow, ih]
        rfl

theorem splitRows_append_gap (h : ∀ c ∈ gap, isSeparator c) (open? : Option (List Char))
    (cs : List Char) : splitRows open? (cs ++ gap) = splitRows open? cs := by
  induction open?, cs using splitRows.induct with
  | case1 => simpa using splitRows_gap_append h []
  | case2 row =>
      rw [List.nil_append]
      induction gap generalizing row with
      | nil => rfl
      | cons c gap ih =>
          obtain ⟨hc, hgap⟩ := List.forall_mem_cons.mp h
          obtain ⟨hopen, hclose⟩ := not_bracket_of_isSeparator hc
          have hstep : splitRows (some row) (c :: gap) = splitRows (some (c :: row)) gap := by
            simp [splitRows, hopen, hclose]
          exact hstep.trans (ih hgap (c :: row))
  | case3 cs ih => simp [splitRows, ih]
  | case4 => simp [splitRows]
  | case5 c cs hopen hclose hsep ih => simp [splitRows, hopen, hclose, hsep, ih]
  | case6 c cs hopen hclose hsep => simp [splitRows, hopen, hclose, hsep]
  | case7 => simp [splitRows]
  | case8 row cs _ ih => simp [splitRows, ih]
  | case9 row c cs hopen hclose ih => simp [splitRows, hopen, hclose, ih]

theorem splitRows_trim (cs : List Char) : splitRows none (trim cs) = splitRows none cs := by
  obtain ⟨before, after, hcs, hbefore, hafter⟩ := exists_trim cs
  conv_rhs => rw [hcs]
  rw [splitRows_append_gap fun c hc => isSeparator_of_isBlank (hafter c hc),
    splitRows_gap_append fun c hc => isSeparator_of_isBlank (hbefore c hc)]

end ReversePolish.Literal
