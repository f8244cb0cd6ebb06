import ReversePolish.Proofs.Literal.Grammar
import ReversePolish.Proofs.Token.Words

/-! # Texts that read as numbers are bare words -/

namespace ReversePolish.Literal

variable {body : List Char}

/-! ## Characters -/

theorem isBare_of_isAlphanum {c : Char} (h : c.isAlphanum) : Token.isBare c := by
  have hrange := Numeral.toNat_of_isAlphanum h
  refine Token.isBare_iff.mpr ⟨?_, ?_, ?_⟩
  · simp only [Text.isBlank, Char.le_def, UInt32.le_iff_toNat_le, ← Char.toNat_inj,
      Bool.or_eq_true, Bool.and_eq_true, decide_eq_true_eq, Char.reduceVal, Char.reduceToNat,
      UInt32.reduceToNat, Char.toNat_val]
    omega
  · rintro rfl
    revert hrange
    decide
  · rintro rfl
    revert hrange
    decide

/-! ## Numbers -/

theorem IsInteger.mem {r : Radix} {n : ℕ} (h : IsInteger r n body) : ∀ c ∈ body, c.isAlphanum := by
  obtain ⟨digits, rfl, hdigits⟩ := h
  obtain ⟨-, hall, -⟩ := (Numeral.denotes_iff (radix_base r).2).mp hdigits
  have hmark : r.mark.all Char.isAlphanum := by cases r <;> decide
  exact List.forall_mem_append.mpr
    ⟨List.all_eq_true.mp hmark, fun c hc => (Numeral.isDigitOf_iff.mp (hall c hc)).1⟩

theorem splitSign_append (text : List Char) :
    (if (splitSign text).1 then ['-'] else []) ++ (splitSign text).2 = text := by
  unfold splitSign
  split <;> simp

/-- What a number literal consists of. -/
theorem mem_of_number {text : List Char} {l : Literal} (h : number text = .ok (some l)) :
    ∀ c ∈ text, c.isAlphanum ∨ c ∈ realMarks := by
  have hnumber : IsNumber (splitSign text).1 (splitSign text).2 l := (number_eq_some rfl).mp h
  have hbody : ∀ c ∈ (splitSign text).2, c.isAlphanum ∨ c ∈ realMarks := by
    cases hnumber with
    | integer hinteger => exact fun c hc => .inl (hinteger.mem c hc)
    | real hreal =>
        have hdigit {c : Char} (hc : c.isDigit) : c.isAlphanum := Bool.or_eq_true_iff.mpr (.inr hc)
        exact fun c hc => (hreal.mem c hc).imp_left hdigit
  rw [← splitSign_append text]
  refine List.forall_mem_append.mpr ⟨?_, hbody⟩
  split
  · exact List.forall_mem_singleton.mpr (by decide)
  · exact List.forall_mem_nil _

theorem read_of_number {text : String} {l : Literal} (h : number text.toList = .ok (some l)) :
    read text = .ok (some l) := by
  have hmem (c : Char) (hc : c ∈ text.toList.head?) : c.isAlphanum ∨ c ∈ realMarks :=
    mem_of_number h c (List.mem_of_mem_head? hc)
  rw [read_eq_number, h]
  · exact fun hopen => absurd (hmem '[' hopen) (by decide)
  · exact fun hunit => absurd (hmem '_' hunit) (by decide)

theorem isBare_of_number {text : List Char} {l : Literal} (h : number text = .ok (some l)) :
    text ≠ [] ∧ ∀ c ∈ text, Token.isBare c := by
  have hmarks : realMarks.all Token.isBare := by decide
  refine ⟨?_, fun c hc => ?_⟩
  · rintro rfl
    cases ((number_eq_some rfl).mp h).begins
  · exact (mem_of_number h c hc).elim isBare_of_isAlphanum (List.all_eq_true.mp hmarks c)

end ReversePolish.Literal
