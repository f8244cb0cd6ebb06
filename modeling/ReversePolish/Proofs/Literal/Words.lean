import ReversePolish.Literal.Reading
import ReversePolish.Proofs.Literal.Number
import ReversePolish.Proofs.Measure.Families

/-! # Texts that read as literals are single words

Numbers and units hold no blank and no bracket. The brackets of vectors and matrices close where the
text ends. -/

namespace ReversePolish.Literal

open Outcome Token

/-! ## Vectors and matrices -/

theorem isBracket_of_component {part : List Char} {x : Float} (h : component part = .ok x) :
    ∀ c ∈ part, isBracket c = false := by
  obtain ⟨l?, hnumber, h⟩ := bind_eq_ok.mp h
  cases l? with
  | none => cases h
  | some l =>
      intro c hc
      have hbare := (isBare_of_number hnumber).2 c hc
      simpa using (Bool.and_eq_true_iff.mp hbare).2

theorem isBracket_of_components {body : List Char} {xs : List Float}
    (h : components body = .ok xs) : ∀ c ∈ body, isBracket c = false := by
  intro c hc
  rcases Text.mem_fields isSeparator hc with hsep | ⟨field, hfield, hc⟩
  · rcases (by simpa [isSeparator] using hsep : c = ',' ∨ Text.isBlank c) with rfl | hblank
    · decide
    · exact isBracket_of_isBlank hblank
  · obtain ⟨x, hx⟩ := exists_of_mapM_eq_ok h field hfield
    exact isBracket_of_component hx c hc

/-- The rows close their brackets, and within a row none opens: an open row counts as one bracket
more. -/
theorem balanced?_of_splitRows {row : Option (List Char)} {cs : List Char}
    {rows : List (List Char)} (h : splitRows row cs = .ok rows) (depth : ℕ) (rest : List Char) :
    balanced? (row.elim depth fun _ => depth + 1) (cs ++ rest) =
      (balanced? depth rest).map fun (inside, after) => (cs ++ inside, after) := by
  induction row, cs using splitRows.induct generalizing rows depth with
  | case1 => simp
  | case2 => cases h
  | case3 cs ih =>
      rw [splitRows, if_pos rfl] at h
      have hrow : balanced? (depth + 1) (cs ++ rest) = _ := ih h depth
      simp [balanced?, hrow, Function.comp_def]
  | case4 cs =>
      rw [splitRows, if_neg (by decide), if_pos rfl] at h
      cases h
  | case5 c cs hopen hclose hsep ih =>
      rw [splitRows, if_neg hopen, if_neg hclose, if_pos hsep] at h
      have hrows : balanced? depth (cs ++ rest) = _ := ih h depth
      simp [balanced?, hopen, hclose, hrows, Function.comp_def]
  | case6 c cs hopen hclose hsep =>
      rw [splitRows, if_neg hopen, if_neg hclose, if_neg hsep] at h
      cases h
  | case7 row cs =>
      rw [splitRows, if_pos rfl] at h
      cases h
  | case8 row cs _ ih =>
      rw [splitRows, if_neg (by decide), if_pos rfl] at h
      obtain ⟨rows, hafter, -⟩ := map_eq_ok.mp h
      have hrows : balanced? depth (cs ++ rest) = _ := ih hafter depth
      simp [balanced?, hrows, Function.comp_def]
  | case9 row c cs hopen hclose ih =>
      rw [splitRows, if_neg hopen, if_neg hclose] at h
      have hrow : balanced? (depth + 1) (cs ++ rest) = _ := ih h depth
      simp [balanced?, hopen, hclose, hrow, Function.comp_def]

theorem closed_of_splitRows {cs : List Char} {rows : List (List Char)}
    (h : splitRows none cs = .ok rows) : Closed cs := balanced?_of_splitRows h

theorem closed_of_trim {cs : List Char} (h : Closed (Text.trim cs)) : Closed cs := by
  obtain ⟨before, after, hcs, hbefore, hafter⟩ := Text.exists_trim cs
  rw [hcs]
  refine ((closed_of_not_isBracket ?_).append h).append (closed_of_not_isBracket ?_)
  · exact fun c hc => isBracket_of_isBlank (hbefore c hc)
  · exact fun c hc => isBracket_of_isBlank (hafter c hc)

theorem inside?_eq_some {text inside : List Char} (h : inside? text = some inside) :
    text = '[' :: (inside ++ [']']) := by
  unfold inside? at h
  split at h
  · split at h
    · next hlast =>
      obtain rfl := Option.some.inj h
      rw [List.dropLast_append_getLast? _ hlast]
    · cases h
  · cases h

theorem inside?_append (body : List Char) : inside? ('[' :: (body ++ [']'])) = some body := by
  simp [inside?]

theorem inside_eq_ok {text body : List Char} :
    inside text = .ok body ↔ text = '[' :: (body ++ [']']) := by
  constructor
  · intro h
    unfold inside at h
    split at h
    · next hbody =>
      obtain rfl := Except.ok.inj h
      exact inside?_eq_some hbody
    · cases h
  · rintro rfl
    rw [inside, inside?_append]

theorem closed_of_bracketed {text : List Char} {l : Literal} (h : bracketed text = .ok l) :
    ∃ inside, text = '[' :: (inside ++ [']']) ∧ Closed inside := by
  obtain ⟨body, hbody, h⟩ := bind_eq_ok.mp h
  refine ⟨body, inside_eq_ok.mp hbody, closed_of_trim ?_⟩
  dsimp only at h
  split at h
  · obtain ⟨rows, hrows, -⟩ := bind_eq_ok.mp h
    cases hsplit : splitRows none (Text.trim body) with
    | error reason =>
        rw [hsplit] at hrows
        cases hrows
    | ok rows => exact closed_of_splitRows hsplit
  · obtain ⟨xs, hxs, -⟩ := bind_eq_ok.mp h
    exact closed_of_not_isBracket (isBracket_of_components hxs)

/-! ## Units -/

theorem isBare_of_lookup? {name : String} (h : (MeasureFamily.lookup? name).isSome) :
    ∀ c ∈ name.toList, isBare c := by
  have hall : ∀ f ∈ MeasureFamily.all, ∀ m ∈ f.measures, m.name.toList.all isBare := by
    decide +kernel
  obtain ⟨⟨f, m⟩, hfound⟩ := Option.isSome_iff_exists.mp h
  obtain ⟨hfamily, hmeasure, rfl⟩ := MeasureFamily.lookup?_eq_some hfound
  exact List.all_eq_true.mp (hall f hfamily m hmeasure)

theorem unit_of_eq_ok {text name : List Char} {l : Literal} (h : unit text name = .ok l) :
    (MeasureFamily.lookup? (String.ofList name)).isSome ∧
      l = { value := .unit (String.ofList name) } := by
  unfold unit at h
  dsimp only at h
  split at h
  · cases h
  split at h
  · cases h
  · next hfound =>
    refine ⟨?_, (Except.ok.inj h).symm⟩
    simpa [Option.isSome_iff_ne_none] using hfound

theorem isBare_of_unit {text name : List Char} {l : Literal} (h : unit text name = .ok l) :
    ∀ c ∈ name, isBare c := by
  obtain ⟨hknown, -⟩ := unit_of_eq_ok h
  simpa using isBare_of_lookup? hknown

/-! ## Any literal -/

/-- A text that reads as a literal is a line of one token. -/
theorem scanLine_of_read {text : String} {l : Literal} (h : read text = .ok (some l)) :
    scanLine text = .ok [⟨text, 0⟩] := by
  unfold read at h
  split at h
  · next cs htext =>
    obtain ⟨_, hbracketed, -⟩ := map_eq_ok.mp h
    obtain ⟨inside, hinside, hclosed⟩ := closed_of_bracketed hbracketed
    exact scanLine_of_closed hclosed (htext.trans hinside)
  · next name htext =>
    obtain ⟨_, hunit, -⟩ := map_eq_ok.mp h
    refine scanLine_of_bare (by simp [htext]) ?_
    rw [htext]
    exact List.forall_mem_cons.mpr ⟨by decide, isBare_of_unit hunit⟩
  · obtain ⟨hne, hbare⟩ := isBare_of_number h
    exact scanLine_of_bare hne hbare

theorem words_of_read {text : String} {l : Literal} (h : read text = .ok (some l)) :
    words text = .ok [text] := by
  rw [words, scanLine_of_read h]
  rfl

end ReversePolish.Literal
