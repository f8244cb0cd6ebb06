import ReversePolish.Literal.Number
import ReversePolish.Proofs.Numeral
import ReversePolish.Proofs.Text.Blank

/-! # The grammar of reals

A text splits into the parts of a real exactly where the grammar derives it with these parts. -/

namespace ReversePolish.Literal

open Numeral

/-- Decimal digits, behind a sign or not. -/
inductive IsExponent : List Char → ℤ → Prop where
  | unsigned {digits : List Char} {n : ℕ} (h : Denotes 10 digits n) : IsExponent digits n
  | plus {digits : List Char} {n : ℕ} (h : Denotes 10 digits n) : IsExponent ('+' :: digits) n
  | minus {digits : List Char} {n : ℕ} (h : Denotes 10 digits n) : IsExponent ('-' :: digits) (-n)

/-- Nothing, or an exponent behind its mark. -/
inductive IsPower : List Char → ℤ → Prop where
  | none : IsPower [] 0
  | marked {mark : Char} {text : List Char} {n : ℤ} (hmark : mark = 'e' ∨ mark = 'E')
      (h : IsExponent text n) : IsPower (mark :: text) n

/-- Digits with a point among them or an exponent behind them. -/
inductive IsReal : List Char → RealParts → Prop where
  | point {whole fraction power : List Char} {n : ℤ} (hwhole : ∀ c ∈ whole, c.isDigit)
      (hfraction : ∀ c ∈ fraction, c.isDigit) (hne : whole ++ fraction ≠ [])
      (hpower : IsPower power n) : IsReal (whole ++ '.' :: (fraction ++ power)) ⟨whole, fraction, n⟩
  | power {whole power : List Char} {n : ℤ} (hwhole : ∀ c ∈ whole, c.isDigit) (hne : whole ≠ [])
      (hpower : IsPower power n) (hmarked : power ≠ []) : IsReal (whole ++ power) ⟨whole, [], n⟩

theorem denotes_ten_iff {text : List Char} {n : ℕ} :
    Denotes 10 text n ↔ text ≠ [] ∧ (∀ c ∈ text, c.isDigit) ∧ Numeral.value 10 text = n := by
  rw [denotes_iff (by decide)]
  simp only [isDigitOf_ten]

/-! ## Splitting a text into parts -/

namespace RealParts

theorem signedValue_eq_some {digits : List Char} (sign : ℕ → ℤ) {n : ℤ} :
    (if digits.isEmpty || !digits.all Char.isDigit then none
      else some (sign (Numeral.value 10 digits))) = some n ↔
      ∃ m, Denotes 10 digits m ∧ sign m = n := by
  simp only [denotes_ten_iff]
  by_cases hgood : digits ≠ [] ∧ ∀ c ∈ digits, c.isDigit
  · rw [if_neg (by simpa using hgood), Option.some.injEq]
    constructor
    · exact fun h => ⟨_, ⟨hgood.1, hgood.2, rfl⟩, h⟩
    · rintro ⟨m, ⟨-, -, rfl⟩, h⟩
      exact h
  · rw [if_pos (by simpa [imp_iff_not_or] using hgood)]
    constructor
    · nofun
    · rintro ⟨m, ⟨hne, hall, -⟩, -⟩
      exact absurd ⟨hne, hall⟩ hgood

theorem isExponent_of_exponent? {text : List Char} {n : ℤ} (h : exponent? text = some n) :
    IsExponent text n := by
  unfold exponent? at h
  split at h
  next hsign =>
    split at hsign
    · obtain ⟨rfl, rfl⟩ := Prod.mk.inj hsign
      obtain ⟨m, hm, rfl⟩ := (signedValue_eq_some fun m => m).mp h
      exact .plus hm
    · obtain ⟨rfl, rfl⟩ := Prod.mk.inj hsign
      obtain ⟨m, hm, rfl⟩ := (signedValue_eq_some fun m => -m).mp h
      exact .minus hm
    · obtain ⟨rfl, rfl⟩ := Prod.mk.inj hsign
      obtain ⟨m, hm, rfl⟩ := (signedValue_eq_some fun m => m).mp h
      exact .unsigned hm

theorem exponent?_of_isExponent {text : List Char} {n : ℤ} (h : IsExponent text n) :
    exponent? text = some n := by
  cases h with
  | @unsigned _ m h =>
      obtain ⟨-, hall, -⟩ := denotes_ten_iff.mp h
      unfold exponent?
      split
      next hsign =>
        split at hsign
        · cases hall '+' List.mem_cons_self
        · cases hall '-' List.mem_cons_self
        · obtain ⟨rfl, rfl⟩ := Prod.mk.inj hsign
          exact (signedValue_eq_some fun m => m).mpr ⟨m, h, rfl⟩
  | @plus _ m h => exact (signedValue_eq_some fun m => m).mpr ⟨m, h, rfl⟩
  | @minus _ m h => exact (signedValue_eq_some fun m => -m).mpr ⟨m, h, rfl⟩

theorem exponent?_eq_some {text : List Char} {n : ℤ} :
    exponent? text = some n ↔ IsExponent text n :=
  ⟨isExponent_of_exponent?, exponent?_of_isExponent⟩

theorem isExponentMark_iff {c : Char} : isExponentMark c ↔ c = 'e' ∨ c = 'E' := by
  simp [isExponentMark]

theorem not_mark_of_isDigit {c : Char} (hc : c.isDigit) : c ≠ '.' ∧ isExponentMark c = false := by
  refine ⟨?_, Bool.eq_false_iff.mpr fun hmark => ?_⟩
  · rintro rfl
    cases hc
  · rcases isExponentMark_iff.mp hmark with rfl | rfl
    · cases hc
    · cases hc

theorem isPower_iff {power : List Char} {n : ℤ} :
    IsPower power n ↔ (∀ c ∈ power.head?, isExponentMark c) ∧
      (if power.isEmpty then some 0 else exponent? (power.drop 1)) = some n := by
  cases power with
  | nil =>
      rw [List.isEmpty_nil, if_pos rfl, Option.some.injEq]
      constructor
      · rintro ⟨⟩
        simp
      · rintro ⟨-, rfl⟩
        exact .none
  | cons mark text =>
      rw [List.isEmpty_cons, if_neg Bool.false_ne_true, List.drop_one, List.tail_cons,
        exponent?_eq_some]
      constructor
      · rintro (_ | ⟨hmark, h⟩)
        exact ⟨by simpa [isExponentMark_iff] using hmark, h⟩
      · rintro ⟨hmark, h⟩
        exact .marked (isExponentMark_iff.mp (hmark mark rfl)) h

theorem ofText?_eq_some_iff {body whole : List Char} (mantissa power point : List Char)
    {parts : RealParts}
    (hbody : body.takeWhile (!isExponentMark ·) = mantissa ∧
      body.dropWhile (!isExponentMark ·) = power)
    (hmantissa : mantissa.takeWhile (· ≠ '.') = whole ∧ mantissa.dropWhile (· ≠ '.') = point) :
    ofText? body = some parts ↔
      ((∀ c ∈ whole, c.isDigit) ∧ ∀ c ∈ point.drop 1, c.isDigit) ∧
        (whole ++ point.drop 1 ≠ [] ∧ point ++ power ≠ []) ∧
        ∃ n, (if power.isEmpty then some 0 else exponent? (power.drop 1)) = some n ∧
          ⟨whole, point.drop 1, n⟩ = parts := by
  have hguard {p : Prop} [Decidable p] {x : Option RealParts} :
      ((guard p : Option Unit) >>= fun _ => x) = some parts ↔ p ∧ x = some parts := by
    by_cases hp : p <;> simp [guard, hp]
  simp only [ofText?, hbody, hmantissa, hguard, Bool.and_eq_true, List.all_eq_true,
    Bool.not_eq_true', List.isEmpty_eq_false_iff]
  refine and_congr_right fun _ => and_congr_right fun _ => ?_
  split
  · simp
  · simp [Option.bind_eq_some_iff]

theorem isReal_of_ofText? {body : List Char} {parts : RealParts} (h : ofText? body = some parts) :
    IsReal body parts := by
  rw [ofText?_eq_some_iff _ _ _ ⟨rfl, rfl⟩ ⟨rfl, rfl⟩] at h
  obtain ⟨hbody, -, hmark⟩ :=
    (Text.takeWhile_dropWhile_iff (!isExponentMark ·) body).mp ⟨rfl, rfl⟩
  generalize body.takeWhile (!isExponentMark ·) = mantissa at *
  generalize body.dropWhile (!isExponentMark ·) = power at *
  obtain ⟨hmantissa, -, hdot⟩ := (Text.takeWhile_dropWhile_iff (· ≠ '.') mantissa).mp ⟨rfl, rfl⟩
  generalize mantissa.takeWhile (· ≠ '.') = whole at *
  generalize mantissa.dropWhile (· ≠ '.') = point at *
  subst hbody hmantissa
  obtain ⟨⟨hwhole, hfraction⟩, ⟨hne, hreal⟩, n, hn, rfl⟩ := h
  have hpower : IsPower power n := isPower_iff.mpr ⟨by simpa using hmark, hn⟩
  cases point with
  | nil => simpa using IsReal.power hwhole (by simpa using hne) hpower (by simpa using hreal)
  | cons c fraction =>
      obtain rfl : c = '.' := by simpa using hdot
      simpa using IsReal.point hwhole hfraction hne hpower

theorem ofText?_of_isReal {body : List Char} {parts : RealParts} (h : IsReal body parts) :
    ofText? body = some parts := by
  cases h with
  | @point whole fraction power n hwhole hfraction hne hpower =>
      obtain ⟨hmark, hn⟩ := isPower_iff.mp hpower
      have hmantissa : ∀ c ∈ whole ++ '.' :: fraction, (!isExponentMark c) := by
        simp only [List.forall_mem_append, List.forall_mem_cons, Bool.not_eq_true']
        exact ⟨fun c hc => (not_mark_of_isDigit (hwhole c hc)).2, by decide,
          fun c hc => (not_mark_of_isDigit (hfraction c hc)).2⟩
      refine (ofText?_eq_some_iff (whole ++ '.' :: fraction) power ('.' :: fraction)
        ((Text.takeWhile_dropWhile_iff _ _).mpr ⟨by simp, hmantissa, by simpa using hmark⟩)
        ((Text.takeWhile_dropWhile_iff _ _).mpr ⟨rfl, ?_, by simp⟩)).mpr ?_
      · simpa using fun c hc => (not_mark_of_isDigit (hwhole c hc)).1
      · exact ⟨⟨hwhole, hfraction⟩, ⟨hne, by simp⟩, n, hn, rfl⟩
  | @power whole power n hwhole hne hpower hmarked =>
      obtain ⟨hmark, hn⟩ := isPower_iff.mp hpower
      refine (ofText?_eq_some_iff whole power []
        ((Text.takeWhile_dropWhile_iff _ _).mpr ⟨rfl, ?_, by simpa using hmark⟩)
        ((Text.takeWhile_dropWhile_iff _ _).mpr ⟨(List.append_nil _).symm, ?_, by simp⟩)).mpr ?_
      · simpa using fun c hc => (not_mark_of_isDigit (hwhole c hc)).2
      · simpa using fun c hc => (not_mark_of_isDigit (hwhole c hc)).1
      · exact ⟨⟨hwhole, by simp⟩, ⟨by simpa using hne, by simpa using hmarked⟩, n, hn, rfl⟩

theorem ofText?_eq_some {body : List Char} {parts : RealParts} :
    ofText? body = some parts ↔ IsReal body parts :=
  ⟨isReal_of_ofText?, ofText?_of_isReal⟩

end RealParts

/-! ## The characters of a real -/

/-- What stands in a real besides digits. -/
def realMarks : List Char := ['.', 'e', 'E', '+', '-']

theorem IsExponent.mem {text : List Char} {n : ℤ} (h : IsExponent text n) :
    ∀ c ∈ text, c.isDigit ∨ c ∈ realMarks := by
  have hdigits {digits : List Char} {m : ℕ} (h : Denotes 10 digits m) :
      ∀ c ∈ digits, c.isDigit ∨ c ∈ realMarks :=
    fun c hc => .inl ((denotes_ten_iff.mp h).2.1 c hc)
  cases h with
  | unsigned h => exact hdigits h
  | plus h => exact List.forall_mem_cons.mpr ⟨.inr (by decide), hdigits h⟩
  | minus h => exact List.forall_mem_cons.mpr ⟨.inr (by decide), hdigits h⟩

theorem IsPower.mem {power : List Char} {n : ℤ} (h : IsPower power n) :
    ∀ c ∈ power, c.isDigit ∨ c ∈ realMarks := by
  cases h with
  | none => simp
  | marked hmark h =>
      refine List.forall_mem_cons.mpr ⟨.inr ?_, h.mem⟩
      rcases hmark with rfl | rfl <;> decide

theorem IsReal.mem {body : List Char} {parts : RealParts} (h : IsReal body parts) :
    ∀ c ∈ body, c.isDigit ∨ c ∈ realMarks := by
  cases h with
  | point hwhole hfraction _ hpower =>
      refine List.forall_mem_append.mpr ⟨fun c hc => .inl (hwhole c hc), ?_⟩
      refine List.forall_mem_cons.mpr ⟨.inr (by decide), ?_⟩
      exact List.forall_mem_append.mpr ⟨fun c hc => .inl (hfraction c hc), hpower.mem⟩
  | power hwhole _ hpower =>
      exact List.forall_mem_append.mpr ⟨fun c hc => .inl (hwhole c hc), hpower.mem⟩

/-- Something besides the digits tells a real from an integer. -/
theorem IsReal.exists_mem {body : List Char} {parts : RealParts} (h : IsReal body parts) :
    ∃ c ∈ body, ¬ c.isDigit := by
  cases h with
  | point => exact ⟨'.', by simp, by decide⟩
  | power _ _ hpower hmarked =>
      cases hpower with
      | none => cases hmarked rfl
      | @marked mark _ _ hmark =>
          refine ⟨mark, by simp, ?_⟩
          rcases hmark with rfl | rfl <;> decide

end ReversePolish.Literal
