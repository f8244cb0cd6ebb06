import Mathlib.Data.List.TakeWhile
import ReversePolish.Text.Blank

/-! # Runs of characters, trimming and splitting

Trimming takes blanks away, and splitting into fields takes separators away, but nothing else. -/

namespace ReversePolish.Text

/-- The run of characters in front, and what begins with another one. -/
theorem takeWhile_dropWhile_iff {α : Type} (p : α → Bool) (xs : List α) {before after : List α} :
    (xs.takeWhile p = before ∧ xs.dropWhile p = after) ↔
      xs = before ++ after ∧ (∀ x ∈ before, p x) ∧ ∀ x ∈ after.head?, p x = false := by
  constructor
  · rintro ⟨rfl, rfl⟩
    refine ⟨List.takeWhile_append_dropWhile.symm, fun x hx => List.mem_takeWhile_imp hx, ?_⟩
    intro x hx
    simpa [Option.mem_def.mp hx] using List.head?_dropWhile_not p xs
  · rintro ⟨rfl, hbefore, hafter⟩
    rw [List.takeWhile_append_of_pos hbefore, List.dropWhile_append_of_pos hbefore]
    cases after with
    | nil => simp
    | cons x after => simp [hafter x rfl]

theorem exists_trim (cs : List Char) : ∃ before after, cs = before ++ trim cs ++ after ∧
    (∀ c ∈ before, isBlank c) ∧ ∀ c ∈ after, isBlank c := by
  refine ⟨cs.takeWhile isBlank, ((cs.dropWhile isBlank).reverse.takeWhile isBlank).reverse,
    ?_, fun c hc => List.mem_takeWhile_imp hc,
    fun c hc => List.mem_takeWhile_imp (List.mem_reverse.mp hc)⟩
  rw [trim, List.append_assoc, ← List.reverse_append, List.takeWhile_append_dropWhile,
    List.reverse_reverse, List.takeWhile_append_dropWhile]

theorem mem_splitOnP {separator : Char → Bool} {cs : List Char} {c : Char} (hc : c ∈ cs) :
    separator c ∨ ∃ field ∈ cs.splitOnP separator, c ∈ field := by
  induction cs with
  | nil => cases hc
  | cons d cs ih =>
      rw [List.splitOnP_cons_eq_if_modifyHead]
      obtain ⟨first, rest, hsplit⟩ :=
        List.exists_cons_of_ne_nil (List.splitOnP_ne_nil separator cs)
      rcases List.mem_cons.mp hc with rfl | hc
      · by_cases hsep : separator c
        · exact .inl hsep
        · exact .inr ⟨c :: first, by simp [hsep, hsplit], List.mem_cons_self⟩
      · rcases ih hc with hsep | ⟨field, hfield, hc⟩
        · exact .inl hsep
        · refine .inr ?_
          split
          · exact ⟨field, List.mem_cons_of_mem _ hfield, hc⟩
          · rw [hsplit] at hfield ⊢
            rcases List.mem_cons.mp hfield with rfl | hfield
            · exact ⟨d :: field, List.mem_cons_self, List.mem_cons_of_mem d hc⟩
            · exact ⟨field, List.mem_cons_of_mem _ hfield, hc⟩

theorem mem_fields (separator : Char → Bool) {cs : List Char} {c : Char} (hc : c ∈ cs) :
    separator c ∨ ∃ field ∈ fields separator cs, c ∈ field := by
  rcases mem_splitOnP hc with hsep | ⟨field, hfield, hc⟩
  · exact .inl hsep
  · exact .inr ⟨field, List.mem_filter.mpr ⟨hfield, by simpa using List.ne_nil_of_mem hc⟩, hc⟩

end ReversePolish.Text
