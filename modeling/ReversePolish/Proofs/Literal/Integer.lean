import ReversePolish.Proofs.Literal.Number

/-! # Integers that are written and read again

An integer comes back with its value and its radix, and as a machine integer if it is one. -/

namespace ReversePolish

/-! ## What is written for an integer -/

namespace Value

theorem format_of_integer? {v : Value} {n : ℤ} (h : v.integer? = some n) (style : Style) :
    v.format style = String.ofList (Numeral.write style.radix n) := by
  cases v with
  | scalar s =>
      cases s with
      | int w => rw [← Option.some.inj h]; rfl
      | bigInt m => rw [← Option.some.inj h]; rfl
      | real x => cases h
  | _ => cases h

end Value

namespace Literal

theorem isInteger_digits (r : Radix) (n : ℕ) : IsInteger r n (r.mark ++ Numeral.digits r.base n) :=
  ⟨_, rfl, Numeral.denotes_digits (radix_base r).1 (radix_base r).2 n⟩

theorem BeginsNumeric.head? {body : List Char} (h : BeginsNumeric body) :
    ∀ c ∈ body.head?, c ≠ '-' ∧ c ≠ '[' ∧ c ≠ '_' := by
  cases h with
  | digit hc =>
      rintro _ ⟨⟩
      refine ⟨?_, ?_, ?_⟩ <;> (rintro rfl; cases hc)
  | point =>
      rintro _ ⟨⟩
      decide

theorem splitSign_sign_append (negative : Bool) {body : List Char} (h : BeginsNumeric body) :
    splitSign ((if negative then ['-'] else []) ++ body) = (negative, body) := by
  rw [splitSign_eq]
  cases negative with
  | true => simp
  | false =>
      have hsign : body.head? ≠ some '-' := fun hminus => (h.head? _ hminus).1 rfl
      simp [hsign]

theorem splitSign_write (r : Radix) (n : ℤ) :
    splitSign (Numeral.write r n) =
      (decide (n < 0), r.mark ++ Numeral.digits r.base n.natAbs) := by
  rw [Numeral.write, List.append_assoc]
  simpa using splitSign_sign_append (decide (n < 0)) (isInteger_digits r n.natAbs).begins

/-! ## What is read of it -/

theorem number_write (r : Radix) (n : ℤ) :
    number (Numeral.write r n) = .ok (some { value := .ofInt n, style := { radix := r } }) := by
  rw [number_of_integer (splitSign_write r n) (isInteger_digits r n.natAbs)]
  have hn : (if decide (n < 0) then -(n.natAbs : ℤ) else n.natAbs) = n := by
    by_cases hn : n < 0
    · rw [decide_eq_true hn, if_pos rfl]
      omega
    · rw [decide_eq_false hn, if_neg Bool.false_ne_true]
      omega
  rw [hn]

theorem read_write (r : Radix) (n : ℤ) :
    read (String.ofList (Numeral.write r n)) =
      .ok (some { value := .ofInt n, style := { radix := r } }) :=
  read_of_number (by rw [String.toList_ofList, number_write])

/-- An integer is written alike in both representations, as one token, and comes back with its
radix. -/
theorem integer_reads_back (n : ℤ) (style : Style) :
    let text := (Value.bigInt n).format style
    (∀ w : Word, w.toInt = n → (Value.int w).format style = text) ∧
      Token.scanLine text = .ok [⟨text, 0⟩] ∧
      ∃ l, read text = .ok (some l) ∧ l.value.integer? = some n ∧
        l.value.kind = (if -2 ^ 63 ≤ n ∧ n < 2 ^ 63 then .int else .bigInt) ∧
        l.style = { radix := style.radix } := by
  intro text
  have htext : text = String.ofList (Numeral.write style.radix n) :=
    Value.format_of_integer? rfl style
  obtain ⟨hne, hbare⟩ := isBare_of_number (number_write style.radix n)
  refine ⟨?_, ?_, _, htext ▸ read_write style.radix n, ?_, ?_, rfl⟩
  · rintro w rfl
    rw [htext]
    exact Value.format_of_integer? rfl style
  · rw [htext]
    exact Token.scanLine_of_bare (by simpa using hne) (by simpa using hbare)
  · exact Value.integer?_ofInt n
  · exact Value.kind_ofInt n

end Literal

end ReversePolish
