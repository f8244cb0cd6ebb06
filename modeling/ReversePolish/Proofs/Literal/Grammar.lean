import ReversePolish.Literal.Reading
import ReversePolish.Proofs.Literal.Real
import ReversePolish.Proofs.Value.Word

/-! # The grammar of number literals

Every text without its sign is one of four things: it does not begin like a number, it is an
integer, it is a real, or it is malformed. -/

namespace ReversePolish

namespace Literal

open Numeral

/-- What a number literal begins with behind its sign. -/
inductive BeginsNumeric : List Char → Prop where
  | digit {c : Char} {rest : List Char} (hc : c.isDigit) : BeginsNumeric (c :: rest)
  | point {c : Char} {rest : List Char} (hc : c.isDigit) : BeginsNumeric ('.' :: c :: rest)

/-- Digits of the radix behind its mark. -/
def IsInteger (r : Radix) (n : ℕ) (body : List Char) : Prop :=
  ∃ digits, body = r.mark ++ digits ∧ Denotes r.base digits n

/-- What a text without its sign reads as. -/
inductive IsNumber (negative : Bool) (body : List Char) : Literal → Prop where
  | integer {r : Radix} {n : ℕ} (h : IsInteger r n body) :
      IsNumber negative body
        { value := .ofInt (if negative then -n else n), style := { radix := r } }
  | real {parts : RealParts} (h : IsReal body parts) :
      IsNumber negative body { value := .real (parts.toBinary64 negative) }

/-! ## How a number begins -/

theorem looksNumeric_iff {body : List Char} : looksNumeric body ↔ BeginsNumeric body := by
  unfold looksNumeric
  split
  · next c rest =>
    constructor
    · exact fun hc => .point hc
    · rintro (⟨⟨⟩⟩ | hc)
      exact hc
  · next c rest hpoint =>
    constructor
    · exact fun hc => .digit hc
    · rintro (hc | _)
      · exact hc
      · exact absurd rfl (hpoint _ _ rfl)
  · exact ⟨nofun, nofun⟩

theorem BeginsNumeric.ne_nil {body : List Char} (h : BeginsNumeric body) : body ≠ [] := by
  cases h <;> nofun

theorem BeginsNumeric.of_digits {text : List Char} (hne : text ≠ [])
    (hdigits : ∀ c ∈ text, c.isDigit) (rest : List Char) : BeginsNumeric (text ++ rest) := by
  obtain ⟨c, text, rfl⟩ := List.exists_cons_of_ne_nil hne
  exact .digit (hdigits c List.mem_cons_self)

theorem IsInteger.begins {r : Radix} {n : ℕ} {body : List Char} (h : IsInteger r n body) :
    BeginsNumeric body := by
  obtain ⟨digits, rfl, hdigits⟩ := h
  cases r with
  | decimal =>
      obtain ⟨hne, hall, -⟩ := denotes_ten_iff.mp hdigits
      simpa [Radix.mark] using BeginsNumeric.of_digits hne hall []
  | _ => exact .digit rfl

theorem IsReal.begins {body : List Char} {parts : RealParts} (h : IsReal body parts) :
    BeginsNumeric body := by
  cases h with
  | @point whole fraction power n hwhole hfraction hne hpower =>
      cases whole with
      | cons c whole => exact .digit (hwhole c List.mem_cons_self)
      | nil =>
          obtain ⟨c, fraction, rfl⟩ := List.exists_cons_of_ne_nil hne
          exact .point (hfraction c List.mem_cons_self)
  | power hwhole hne => exact .of_digits hne hwhole _

/-! ## Marks of a radix -/

theorem ofMark?_eq_some {mark : List Char} {radix : Radix} (h : Radix.ofMark? mark = some radix) :
    mark = radix.mark ∧ radix ≠ .decimal := by
  unfold Radix.ofMark? at h
  split at h <;> cases h <;> exact ⟨rfl, nofun⟩

theorem splitMark_of_forall {body : List Char} (h : ∀ c ∈ body, c ≠ 'x' ∧ c ≠ 'o' ∧ c ≠ 'b') :
    splitMark body = (.decimal, body) := by
  have hnone : Radix.ofMark? (body.take 2) = none := by
    rw [Option.eq_none_iff_forall_not_mem]
    intro radix hradix
    obtain ⟨hmark, hne⟩ := ofMark?_eq_some hradix
    have hall : ∀ c ∈ radix.mark, c ≠ 'x' ∧ c ≠ 'o' ∧ c ≠ 'b' :=
      fun c hc => h c (List.mem_of_mem_take (hmark ▸ hc))
    cases radix with
    | decimal => exact hne rfl
    | hexadecimal => exact (hall 'x' (by decide)).1 rfl
    | octal => exact (hall 'o' (by decide)).2.1 rfl
    | binary => exact (hall 'b' (by decide)).2.2 rfl
  rw [splitMark, hnone]

theorem splitMark_mark_append {r : Radix} (hr : r ≠ .decimal) (digits : List Char) :
    splitMark (r.mark ++ digits) = (r, digits) := by
  cases r with
  | decimal => cases hr rfl
  | _ => rfl

theorem ne_mark_of_isDigit {c : Char} (h : c.isDigit) : c ≠ 'x' ∧ c ≠ 'o' ∧ c ≠ 'b' := by
  refine ⟨?_, ?_, ?_⟩ <;> rintro rfl <;> cases h

/-! ## What a text reads as -/

variable {text body : List Char} {negative : Bool}

theorem radix_base (r : Radix) : 1 < r.base ∧ r.base ≤ 16 := by
  cases r <;> decide

theorem ofDigits_of_denotes {r : Radix} {digits : List Char} {n : ℕ}
    (h : Denotes r.base digits n) (negative : Bool) :
    ofDigits r negative digits =
      { value := .ofInt (if negative then -n else n), style := { radix := r } } := by
  rw [ofDigits, ((denotes_iff (radix_base r).2).mp h).2.2]

theorem number_of_integer (hsign : splitSign text = (negative, body)) {r : Radix} {n : ℕ}
    (h : IsInteger r n body) :
    number text = .ok (some
      { value := .ofInt (if negative then -n else n), style := { radix := r } }) := by
  have hlooks : looksNumeric body := looksNumeric_iff.mpr h.begins
  obtain ⟨digits, rfl, hdigits⟩ := h
  obtain ⟨hne, hall, -⟩ := (denotes_iff (radix_base r).2).mp hdigits
  rw [← ofDigits_of_denotes hdigits]
  by_cases hr : r = .decimal
  · subst hr
    simp only [Radix.base, isDigitOf_ten] at hall
    have hmark := splitMark_of_forall fun c hc => ne_mark_of_isDigit (hall c hc)
    have hlooks : looksNumeric digits = true := hlooks
    simp [number, hsign, hlooks, hmark, Radix.mark, List.all_eq_true.mpr hall]
  · simpa [number, hsign, hlooks, splitMark_mark_append hr, hr] using ⟨hne, hall⟩

theorem number_of_real (hsign : splitSign text = (negative, body)) {parts : RealParts}
    (h : IsReal body parts) :
    number text = .ok (some { value := .real (parts.toBinary64 negative) }) := by
  have hlooks : looksNumeric body := looksNumeric_iff.mpr h.begins
  have hmark : splitMark body = (.decimal, body) := by
    have hmarks : ∀ c ∈ realMarks, c ≠ 'x' ∧ c ≠ 'o' ∧ c ≠ 'b' := by simp [realMarks]
    exact splitMark_of_forall fun c hc => (h.mem c hc).elim ne_mark_of_isDigit (hmarks c)
  have hparts := RealParts.ofText?_eq_some.mpr h
  have hall : body.all Char.isDigit = false := List.all_eq_false.mpr h.exists_mem
  simp [number, hsign, hlooks, hmark, hall, hparts]

/-- What begins with a mark is an integer of that radix or nothing. -/
theorem number_marked (hsign : splitSign text = (negative, body)) (hbegins : BeginsNumeric body)
    {radix : Radix} (hmark : Radix.ofMark? (body.take 2) = some radix) :
    (∃ l, IsNumber negative body l ∧ number text = .ok (some l)) ∨
      ∃ reason, number text = .error (.parse (String.ofList text) reason) := by
  obtain ⟨htake, hradix⟩ := ofMark?_eq_some hmark
  have hlooks : looksNumeric body := looksNumeric_iff.mpr hbegins
  simp only [number, hsign, hlooks, splitMark, hmark, ne_eq, hradix, not_false_eq_true, if_true,
    Bool.not_true, Bool.false_eq_true, if_false]
  by_cases hdigits : body.drop 2 ≠ [] ∧ ∀ c ∈ body.drop 2, isDigitOf radix.base c
  · have hbody : body = radix.mark ++ body.drop 2 := by
      rw [← htake, List.take_append_drop]
    have hdenotes : Denotes radix.base (body.drop 2) (Numeral.value radix.base (body.drop 2)) :=
      (denotes_iff (radix_base radix).2).mpr ⟨hdigits.1, hdigits.2, rfl⟩
    rw [if_neg (by simpa using hdigits)]
    exact .inl ⟨_, .integer ⟨_, hbody, hdenotes⟩, rfl⟩
  · rw [if_pos (by simpa [imp_iff_not_or] using hdigits)]
    exact .inr ⟨_, rfl⟩

theorem number_unmarked (hsign : splitSign text = (negative, body)) (hbegins : BeginsNumeric body)
    (hmark : Radix.ofMark? (body.take 2) = none) :
    (∃ l, IsNumber negative body l ∧ number text = .ok (some l)) ∨
      ∃ reason, number text = .error (.parse (String.ofList text) reason) := by
  have hlooks : looksNumeric body := looksNumeric_iff.mpr hbegins
  simp only [number, hsign, hlooks, splitMark, hmark, ne_eq, not_true_eq_false, if_false,
    Bool.not_true, Bool.false_eq_true]
  by_cases hall : body.all Char.isDigit
  · have hdenotes : Denotes 10 body (Numeral.value 10 body) :=
      denotes_ten_iff.mpr ⟨hbegins.ne_nil, List.all_eq_true.mp hall, rfl⟩
    rw [if_pos hall]
    exact .inl ⟨_, .integer (r := .decimal) ⟨body, rfl, hdenotes⟩, rfl⟩
  · rw [if_neg hall]
    cases hparts : RealParts.ofText? body with
    | some parts => exact .inl ⟨_, .real (RealParts.ofText?_eq_some.mp hparts), rfl⟩
    | none => exact .inr ⟨_, rfl⟩

/-- There is no number, a number of the grammar, or a complaint about the text. -/
theorem number_cases (hsign : splitSign text = (negative, body)) :
    (¬ BeginsNumeric body ∧ number text = .ok none) ∨
      (∃ l, IsNumber negative body l ∧ number text = .ok (some l)) ∨
      BeginsNumeric body ∧ ∃ reason, number text = .error (.parse (String.ofList text) reason) := by
  by_cases hbegins : BeginsNumeric body
  · refine .inr ?_
    cases hmark : Radix.ofMark? (body.take 2) with
    | some radix => exact (number_marked hsign hbegins hmark).imp_right fun h => ⟨hbegins, h⟩
    | none => exact (number_unmarked hsign hbegins hmark).imp_right fun h => ⟨hbegins, h⟩
  · have hlooks : looksNumeric body = false :=
      Bool.eq_false_iff.mpr fun h => hbegins (looksNumeric_iff.mp h)
    exact .inl ⟨hbegins, by simp [number, hsign, hlooks]⟩

theorem number_eq_some (hsign : splitSign text = (negative, body)) {l : Literal} :
    number text = .ok (some l) ↔ IsNumber negative body l := by
  constructor
  · intro h
    rcases number_cases hsign with ⟨-, hnone⟩ | ⟨l', hnumber, hsome⟩ | ⟨-, reason, herror⟩
    · cases h.symm.trans hnone
    · cases h.symm.trans hsome
      exact hnumber
    · cases h.symm.trans herror
  · intro h
    cases h with
    | integer h => exact number_of_integer hsign h
    | real h => exact number_of_real hsign h

theorem IsNumber.begins {l : Literal} (h : IsNumber negative body l) : BeginsNumeric body := by
  cases h with
  | integer h => exact h.begins
  | real h => exact h.begins

theorem number_eq_none (hsign : splitSign text = (negative, body)) :
    number text = .ok none ↔ ¬ BeginsNumeric body := by
  rcases number_cases hsign with ⟨hbegins, hnone⟩ | ⟨l, hnumber, hsome⟩ | ⟨hbegins, _, herror⟩
  · simp [hbegins, hnone]
  · simp [hnumber.begins, hsome]
  · simp [hbegins, herror]

end Literal

/-! ## Integers as values -/

namespace Value

theorem integer?_ofInt (n : ℤ) : (ofInt n).integer? = some n := by
  unfold ofInt
  split
  · next hw => exact congrArg some (Word.ofInt?_eq_some.mp hw)
  · rfl

theorem kind_ofInt (n : ℤ) :
    (ofInt n).kind = if -2 ^ 63 ≤ n ∧ n < 2 ^ 63 then .int else .bigInt := by
  have hrange : Int64.minValue.toInt ≤ n ∧ n ≤ Int64.maxValue.toInt ↔ -2 ^ 63 ≤ n ∧ n < 2 ^ 63 :=
    and_congr_right fun _ => Int.lt_add_one_iff.symm
  by_cases hn : -2 ^ 63 ≤ n ∧ n < 2 ^ 63
  · rw [ofInt, Word.ofInt?, if_pos (hrange.mpr hn), if_pos hn]
    rfl
  · rw [ofInt, Word.ofInt?, if_neg (mt hrange.mp hn), if_neg hn]
    rfl

end Value

/-! ## Reading a text -/

namespace Literal

open Numeral

variable {text body : List Char} {negative : Bool}

theorem exists_integer_iff (hsign : splitSign text = (negative, body)) :
    (∃ l n, number text = .ok (some l) ∧ l.value.integer? = some n) ↔
      ∃ r m, IsInteger r m body := by
  constructor
  · rintro ⟨l, n, hl, hn⟩
    cases (number_eq_some hsign).mp hl with
    | integer h => exact ⟨_, _, h⟩
    | real => cases hn
  · rintro ⟨r, m, h⟩
    exact ⟨_, _, number_of_integer hsign h, Value.integer?_ofInt _⟩

theorem exists_real_iff (hsign : splitSign text = (negative, body)) :
    (∃ l x, number text = .ok (some l) ∧ l.value = .real x) ↔ ∃ parts, IsReal body parts := by
  constructor
  · rintro ⟨l, x, hl, hx⟩
    cases (number_eq_some hsign).mp hl with
    | @integer r m h =>
        have hinteger := Value.integer?_ofInt (if negative then -m else m)
        dsimp only at hx
        rw [hx] at hinteger
        cases hinteger
    | real h => exact ⟨_, h⟩
  · rintro ⟨parts, h⟩
    exact ⟨_, _, number_of_real hsign h, rfl⟩

theorem exists_error_iff (hsign : splitSign text = (negative, body)) :
    (∃ reason, number text = .error (.parse (String.ofList text) reason)) ↔
      BeginsNumeric body ∧ (¬ ∃ r m, IsInteger r m body) ∧ ¬ ∃ parts, IsReal body parts := by
  constructor
  · rintro ⟨reason, herror⟩
    refine ⟨by_contra fun hbegins => ?_, ?_, ?_⟩
    · cases herror.symm.trans ((number_eq_none hsign).mpr hbegins)
    · rintro ⟨r, m, h⟩
      cases herror.symm.trans (number_of_integer hsign h)
    · rintro ⟨parts, h⟩
      cases herror.symm.trans (number_of_real hsign h)
  · rintro ⟨hbegins, hinteger, hreal⟩
    rcases number_cases hsign with ⟨hnot, -⟩ | ⟨l, hnumber, -⟩ | ⟨-, herror⟩
    · exact absurd hbegins hnot
    · cases hnumber with
      | integer h => exact absurd ⟨_, _, h⟩ hinteger
      | real h => exact absurd ⟨_, h⟩ hreal
    · exact herror

theorem read_eq_number {text : String} (hopen : text.toList.head? ≠ some '[')
    (hunit : text.toList.head? ≠ some '_') : read text = number text.toList := by
  rw [read]
  split
  · next h => simp [h] at hopen
  · next h => simp [h] at hunit
  · rfl

theorem splitSign_eq (text : List Char) : splitSign text =
    (decide (text.head? = some '-'), if text.head? = some '-' then text.tail else text) := by
  unfold splitSign
  split
  · simp
  · next h =>
    have hsign : text.head? ≠ some '-' := by
      rintro hsign
      obtain ⟨rest, rfl⟩ := List.head?_eq_some_iff.mp hsign
      exact h rest rfl
    simp [hsign]

/-- A text that is neither a bracketed literal nor a unit is read by the grammar of numbers: where
it does not begin like one, there is no literal; else it is an integer of that value, radix and
representation, a real, or refused as malformed. -/
theorem read_follows_grammar {text : String} (hopen : text.toList.head? ≠ some '[')
    (hunit : text.toList.head? ≠ some '_') :
    let negative := text.toList.head? = some '-'
    let body := if negative then text.toList.tail else text.toList
    (read text = .ok none ↔ ¬ BeginsNumeric body) ∧
      ((∃ l n, read text = .ok (some l) ∧ l.value.integer? = some n) ↔
        ∃ r m, IsInteger r m body) ∧
      (∀ r m, IsInteger r m body →
        let n : ℤ := if negative then -m else m
        ∃ l, read text = .ok (some l) ∧ l.value.integer? = some n ∧
          l.value.kind = (if -2 ^ 63 ≤ n ∧ n < 2 ^ 63 then .int else .bigInt) ∧
          l.style = { radix := r }) ∧
      ((∃ l x, read text = .ok (some l) ∧ l.value = .real x) ↔ ∃ parts, IsReal body parts) ∧
      (∀ parts, IsReal body parts →
        read text = .ok (some { value := .real (parts.toBinary64 negative) })) ∧
      ((∃ reason, read text = .error (.parse text reason)) ↔
        BeginsNumeric body ∧ (¬ ∃ r m, IsInteger r m body) ∧ ¬ ∃ parts, IsReal body parts) := by
  intro negative body
  have hsign : splitSign text.toList = (decide negative, body) := splitSign_eq text.toList
  rw [read_eq_number hopen hunit]
  refine ⟨number_eq_none hsign, exists_integer_iff hsign, ?_, exists_real_iff hsign,
    fun parts h => number_of_real hsign h, by simpa using exists_error_iff hsign⟩
  intro r m h n
  refine ⟨_, number_of_integer hsign h, ?_, ?_, rfl⟩
  · simpa using Value.integer?_ofInt n
  · simpa using Value.kind_ofInt n

/-- The least machine integer in hexadecimal notation, with a zero in front. -/
theorem read_follows_grammar_at_least_word :
    let text := "-0x08000000000000000"
    let body := text.toList.tail
    text.toList.head? ≠ some '[' ∧ text.toList.head? ≠ some '_' ∧
      IsInteger .hexadecimal (2 ^ 63) body ∧
      ∃ l, read text = .ok (some l) ∧ l.value.integer? = some (-2 ^ 63) ∧ l.value.kind = .int ∧
        l.style = { radix := .hexadecimal } := by
  intro text body
  have hopen : text.toList.head? ≠ some '[' := by decide +kernel
  have hunit : text.toList.head? ≠ some '_' := by decide +kernel
  have hbody : IsInteger .hexadecimal (2 ^ 63) body :=
    ⟨"08000000000000000".toList, by decide +kernel,
      (denotes_iff (by decide)).mpr
        ⟨by decide +kernel, List.all_eq_true.mp (by decide +kernel), by decide +kernel⟩⟩
  have hsign : text.toList.head? = some '-' := by decide +kernel
  have hinteger := (read_follows_grammar hopen hunit).2.2.1 .hexadecimal (2 ^ 63)
  simp only [hsign, if_true] at hinteger
  obtain ⟨l, hread, hvalue, hkind, hstyle⟩ := hinteger hbody
  exact ⟨hopen, hunit, hbody, l, hread, hvalue, hkind, hstyle⟩

end Literal

end ReversePolish
