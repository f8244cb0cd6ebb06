import ReversePolish.Proofs.Literal.Rows
import ReversePolish.Proofs.Value.Shape

/-! # Reading vectors and matrices

What is read are the texts of the loose layout, among them all texts of the grammar. -/

namespace ReversePolish.Literal

open Outcome Text Layout

variable {gap rest : List Char}

/-! ## Vectors and matrices -/

theorem head?_trim (cs : List Char) : (trim cs).head? = (cs.dropWhile isBlank).head? := by
  rw [trim]
  cases hcs : cs.dropWhile isBlank with
  | nil => rfl
  | cons c rest =>
      have hc : isBlank c = false := by
        simpa [hcs] using List.head?_dropWhile_not isBlank cs
      rw [List.reverse_cons, List.dropWhile_append]
      split
      · simp [hc]
      · simp

theorem rowComponents_enclosed (body : List Char) :
    rowComponents ('[' :: (body ++ [']'])) = components body := by
  rw [rowComponents, inside_eq_ok.mpr rfl]
  rfl

theorem isRow_loose_iff {text : List Char} {xs : List Float} :
    loose.IsRow text xs ↔
      xs ≠ [] ∧ ∃ row, IsEnclosed text row ∧ rowComponents row = .ok xs := by
  simp only [Layout.IsRow, lists_components_iff, IsEnclosed]
  constructor
  · rintro ⟨body, rfl, hne, hxs⟩
    refine ⟨hne, _, ⟨rfl, body, rfl, isBracket_of_components hxs⟩, ?_⟩
    rwa [rowComponents_enclosed]
  · rintro ⟨hne, _, ⟨rfl, body, rfl, -⟩, hxs⟩
    rw [rowComponents_enclosed] at hxs
    exact ⟨body, rfl, hne, hxs⟩

theorem vector_eq_ok {text : String} {body : List Char} {l : Literal} :
    vector text body = .ok l ↔
      ∃ d v, components body = .ok (Vector.toList v) ∧ l = { value := .vector d v } := by
  simp only [vector, bind_eq_ok]
  constructor
  · rintro ⟨xs, hxs, h⟩
    split at h
    · next value hvalue =>
      obtain ⟨d, v, rfl, rfl⟩ := Value.ofComponents?_eq_some.mp hvalue
      exact ⟨d, v, hxs, (Except.ok.inj h).symm⟩
    · cases h
  · rintro ⟨d, v, hxs, rfl⟩
    have hvalue : Value.ofComponents? v.toList = some (.vector d v) :=
      Value.ofComponents?_eq_some.mpr ⟨d, v, rfl, rfl⟩
    exact ⟨v.toList, hxs, by rw [hvalue]⟩

theorem matrix_eq_ok {text : String} {body : List Char} {l : Literal} :
    matrix text body = .ok l ↔
      ∃ rows d m, splitRows none body = .ok rows ∧
        List.Forall₂ (fun row xs => rowComponents row = .ok xs) rows (SquareMatrix.toRows m) ∧
        l = { value := .matrix d m } := by
  have hsplit {rows : List (List Char)} :
      (splitRows none body).mapError (Error.parse text) = .ok rows ↔
        splitRows none body = .ok rows := by
    cases splitRows none body <;> simp [Except.mapError]
  simp only [matrix, bind_eq_ok, hsplit, mapM_eq_ok]
  constructor
  · rintro ⟨rows, hrows, xss, hxss, h⟩
    split at h
    · cases h
    split at h
    · next value hvalue =>
      obtain ⟨d, m, rfl, rfl⟩ := Value.ofRows?_eq_some.mp hvalue
      exact ⟨rows, d, m, hrows, hxss, (Except.ok.inj h).symm⟩
    · cases h
  · rintro ⟨rows, d, m, hrows, hxss, rfl⟩
    have hsquare : m.toRows.find? (·.length ≠ m.toRows.length) = none := by
      rw [List.find?_eq_none]
      intro row hrow
      simp [SquareMatrix.length_of_mem_toRows hrow, SquareMatrix.length_toRows]
    have hvalue : Value.ofRows? m.toRows = some (.matrix d m) :=
      Value.ofRows?_eq_some.mpr ⟨d, m, rfl, rfl⟩
    exact ⟨rows, hrows, m.toRows, hxss, by rw [hsquare, hvalue]⟩

/-! ## What is read -/

theorem isBlanks_of_head?_dropWhile (hgap : ∀ c ∈ gap, isSeparator c)
    (h : ((gap ++ rest).dropWhile isBlank).head? = some '[') : IsBlanks gap := by
  induction gap with
  | nil => exact List.forall_mem_nil _
  | cons c gap ih =>
      obtain ⟨hc, hgap⟩ := List.forall_mem_cons.mp hgap
      by_cases hblank : isBlank c
      · refine List.forall_mem_cons.mpr ⟨hblank, ih hgap ?_⟩
        simpa [hblank] using h
      · have hopen : c = '[' := by simpa [hblank] using h
        exact absurd hopen (not_bracket_of_isSeparator hc).1

/-- In front of the first row only blanks may stand, so that a bracket is the first character of
the matrix without its own brackets. -/
theorem lists_rows_iff {α : Type} {part : List Char → α → Prop} {inside : List Char} {as : List α}
    (hpart : ∀ text a, part text a → text.head? = some '[') :
    Lists loose.rows part inside as ↔
      (trim inside).head? = some '[' ∧ GoesOn loose.rows part inside as := by
  rw [head?_trim]
  constructor
  · intro h
    cases h with
    | @cons gap text rest a as hgap ha h =>
        obtain ⟨after, rfl⟩ := List.head?_eq_some_iff.mp (hpart text a ha)
        refine ⟨?_, .cons (fun c hc => isSeparator_of_isBlank (hgap c hc)) ha h⟩
        have hopen : isBlank '[' = false := by decide
        simp [List.dropWhile_append_of_pos hgap, hopen]
  · rintro ⟨hhead, h⟩
    cases h with
    | nil hgap =>
        have hmem := List.mem_of_mem_head? (Option.mem_def.mpr hhead)
        exact absurd (hgap '[' (List.dropWhile_subset _ hmem)) (by decide)
    | cons hgap ha h => exact .cons (isBlanks_of_head?_dropWhile hgap hhead) ha h

theorem components_trim (body : List Char) : components (trim body) = components body := by
  rw [components, components, fields_trim fun _ => isSeparator_of_isBlank]

theorem denotes_of_bracketed {text : List Char} {l : Literal} (h : bracketed text = .ok l) :
    ∃ v, loose.Denotes text v ∧ l = { value := v } := by
  obtain ⟨body, hbody, h⟩ := bind_eq_ok.mp h
  have htext := inside_eq_ok.mp hbody
  dsimp only at h
  by_cases hhead : (trim body).head? = some '['
  · rw [if_pos hhead] at h
    obtain ⟨rows, d, m, hrows, hcomponents, rfl⟩ := matrix_eq_ok.mp h
    rw [splitRows_trim, splitRows_eq_ok] at hrows
    refine ⟨_, .matrix htext ((lists_rows_iff fun _ _ => IsRow.head?_eq).mpr ⟨hhead, ?_⟩), rfl⟩
    refine (goesOn_comp_iff.mpr ⟨rows, hrows, hcomponents⟩).mono .refl fun text xs hxs hrow => ?_
    have hlength := SquareMatrix.length_of_mem_toRows hxs
    exact isRow_loose_iff.mpr ⟨Dimension.ne_nil_of_length_eq hlength, hrow⟩
  · rw [if_neg hhead] at h
    obtain ⟨d, v, hcomponents, rfl⟩ := vector_eq_ok.mp h
    rw [components_trim] at hcomponents
    have hne := Dimension.ne_nil_of_length_eq v.length_toList
    exact ⟨_, .vector ⟨body, htext, lists_components_iff.mpr ⟨hne, hcomponents⟩⟩, rfl⟩

theorem bracketed_of_denotes {text : List Char} {v : Value} (h : loose.Denotes text v) :
    bracketed text = .ok { value := v } := by
  cases h with
  | vector h =>
      obtain ⟨inside, rfl, h⟩ := h
      obtain ⟨-, hcomponents⟩ := lists_components_iff.mp h
      -- No bracket stands among components.
      have hhead : (trim inside).head? ≠ some '[' := by
        intro hhead
        rw [head?_trim] at hhead
        have hmem := List.mem_of_mem_head? (Option.mem_def.mpr hhead)
        have hopen := isBracket_of_components hcomponents '[' (List.dropWhile_subset _ hmem)
        exact absurd hopen (by decide)
      rw [← components_trim] at hcomponents
      refine bind_eq_ok.mpr ⟨inside, inside_eq_ok.mpr rfl, ?_⟩
      rw [if_neg hhead]
      exact vector_eq_ok.mpr ⟨_, _, hcomponents, rfl⟩
  | @matrix d m inside htext h =>
      obtain rfl := htext
      obtain ⟨hhead, h⟩ := (lists_rows_iff fun _ _ => IsRow.head?_eq).mp h
      have hrows := h.mono .refl fun _ _ _ hrow => (isRow_loose_iff.mp hrow).2
      obtain ⟨rows, hrows, hcomponents⟩ := goesOn_comp_iff.mp hrows
      rw [← splitRows_eq_ok, ← splitRows_trim] at hrows
      refine bind_eq_ok.mpr ⟨inside, inside_eq_ok.mpr rfl, ?_⟩
      rw [if_pos hhead]
      exact matrix_eq_ok.mpr ⟨rows, d, m, hrows, hcomponents, rfl⟩

theorem bracketed_eq_ok {text : List Char} {l : Literal} :
    bracketed text = .ok l ↔ ∃ v, loose.Denotes text v ∧ l = { value := v } := by
  constructor
  · exact denotes_of_bracketed
  · rintro ⟨v, h, rfl⟩
    exact bracketed_of_denotes h

theorem read_eq_bracketed {text : String} (hopen : text.toList.head? = some '[') :
    read text = (bracketed text.toList).map some := by
  obtain ⟨cs, htext⟩ := List.head?_eq_some_iff.mp hopen
  rw [read, htext]
  rfl

/-- A literal is a vector or matrix, a unit of the catalog or a number. -/
theorem read_cases {text : String} {l : Literal} (h : read text = .ok (some l)) :
    (∃ v, loose.Denotes text.toList v ∧ l = { value := v }) ∨
      (∃ name, (MeasureFamily.lookup? name).isSome ∧ l = { value := .unit name }) ∨
      IsNumber (splitSign text.toList).1 (splitSign text.toList).2 l := by
  unfold read at h
  split at h
  · next cs htext =>
    obtain ⟨_, hbracketed, hl⟩ := map_eq_ok.mp h
    obtain rfl := Option.some.inj hl
    rw [htext]
    exact .inl (bracketed_eq_ok.mp hbracketed)
  · obtain ⟨_, hunit, hl⟩ := map_eq_ok.mp h
    obtain rfl := Option.some.inj hl
    exact .inr (.inl ⟨_, unit_of_eq_ok hunit⟩)
  · exact .inr (.inr ((number_eq_some rfl).mp h))

/-- Every text of the grammar is read as the vector or matrix that it stands for, component by
component, and what is read besides these are the texts of the loose layout. -/
theorem read_follows_layout {text : String} (hopen : text.toList.head? = some '[') :
    (∀ v, strict.Denotes text.toList v → read text = .ok (some { value := v })) ∧
      ∀ l, read text = .ok (some l) ↔
        ∃ v, loose.Denotes text.toList v ∧ l = { value := v } := by
  have hread (l : Literal) : read text = .ok (some l) ↔ bracketed text.toList = .ok l := by
    rw [read_eq_bracketed hopen, map_eq_ok]
    simp
  refine ⟨fun v h => ?_, fun l => (hread l).trans bracketed_eq_ok⟩
  exact (hread _).mpr (bracketed_of_denotes h.of_strict)

/-- Rows with nothing between them are read. -/
theorem read_follows_layout_of_adjacent_rows :
    "[[1,2][3,4]]".toList.head? = some '[' ∧
      ∃ v, loose.Denotes "[[1,2][3,4]]".toList v ∧ v.kind = .matrix .two := by
  have hopen : "[[1,2][3,4]]".toList.head? = some '[' := by decide
  have hread : (read "[[1,2][3,4]]").map (·.map (·.value.kind)) =
      .ok (some (.matrix .two)) := by
    decide +kernel
  obtain ⟨l?, hl, hkind⟩ := map_eq_ok.mp hread
  obtain ⟨l, rfl, hmatrix⟩ := Option.map_eq_some_iff.mp hkind
  obtain ⟨v, hv, rfl⟩ := ((read_follows_layout hopen).2 l).mp hl
  exact ⟨hopen, v, hv, hmatrix⟩

/-- Two commas in a row leave a component out, which the grammar does not allow, but what is read is
the vector of the others. -/
theorem doubled_comma_is_read :
    ¬ ∀ text : String, text.toList.head? = some '[' →
      ((∃ l, read text = .ok (some l)) ↔ ∃ v, strict.Denotes text.toList v) := by
  intro h
  have hread : (read "[1,,2]").map (·.map (·.value.kind)) = .ok (some (.vector .two)) := by
    decide +kernel
  obtain ⟨l?, hl, hkind⟩ := map_eq_ok.mp hread
  obtain ⟨l, rfl, hvector⟩ := Option.map_eq_some_iff.mp hkind
  obtain ⟨v, hv⟩ := (h "[1,,2]" (by decide)).mp ⟨l, hl⟩
  have hsame := hl.symm.trans ((read_follows_layout (by decide)).1 v hv)
  obtain rfl : l = { value := v } := by simpa using hsame
  cases hv with
  | matrix => cases hvector
  | @vector d v hrow =>
      obtain rfl : d = .two := by simpa [Value.kind] using hvector
      obtain ⟨inside, htext, hlists⟩ := hrow
      obtain rfl : inside = ['1', ',', ',', '2'] := by
        have hinside := congrArg inside? htext
        rw [inside?_append] at hinside
        simpa [inside?] using hinside.symm
      have hcount := count_comma_lt_of_lists hlists
      rw [v.length_toList] at hcount
      exact absurd hcount (by decide)

end ReversePolish.Literal
