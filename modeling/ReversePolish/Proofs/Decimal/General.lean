import ReversePolish.Decimal.General
import ReversePolish.Proofs.Binary64.Finite
import ReversePolish.Proofs.Decimal.Significant
import ReversePolish.Proofs.Literal.Integer

/-! # The general text of a finite number

The text has digits in front of a point, behind which more digits stand, or no point at all, and
perhaps an exponent. It denotes exactly the number that it was rounded to, and is a literal. -/

namespace ReversePolish.Decimal.GeneralFormat

open Literal

/-! ## Digits and a point -/

def AreDigits (text : List Char) : Prop := ∀ c ∈ text, c.isDigit

theorem areDigits_toDigits (n : ℕ) : AreDigits (Nat.toDigits 10 n) :=
  fun _ hc => Nat.isDigit_of_mem_toDigits (by decide) (by decide) hc

theorem AreDigits.denotes {digits : List Char} (h : AreDigits digits) (hne : digits ≠ []) :
    Numeral.Denotes 10 digits (Numeral.value 10 digits) :=
  denotes_ten_iff.mpr ⟨hne, h, rfl⟩

theorem areDigits_zeros (n : ℕ) : AreDigits (List.replicate n '0') := by
  intro c hc
  rw [List.eq_of_mem_replicate hc]
  rfl

theorem areDigits_padded (k n : ℕ) : AreDigits (List.replicate k '0' ++ Nat.toDigits 10 n) :=
  List.forall_mem_append.mpr ⟨areDigits_zeros k, areDigits_toDigits n⟩

theorem value_padded (k n : ℕ) :
    Numeral.value 10 (List.replicate k '0' ++ Nat.toDigits 10 n) = n := by
  rw [Numeral.value_append, Numeral.value_zeros, Numeral.value_toDigits, zero_mul, zero_add]

/-- Zeros at the end of the fraction are left out, and the point in front of nothing. -/
theorem exists_pointed (f : GeneralFormat) (whole fraction : List Char) :
    ∃ kept k, fraction = kept ++ List.replicate k '0' ∧ kept.getLast? ≠ some '0' ∧
      f.pointed whole fraction = whole ++ if kept = [] then [] else f.point :: kept := by
  obtain ⟨hfraction, hzeros, hlast⟩ :=
    (Text.takeWhile_dropWhile_iff (· = '0') fraction.reverse).mp ⟨rfl, rfl⟩
  refine ⟨(fraction.reverse.dropWhile (· = '0')).reverse,
    (fraction.reverse.takeWhile (· = '0')).length, ?_, ?_, ?_⟩
  · rw [← List.reverse_replicate, ← List.reverse_append,
      ← List.eq_replicate_of_mem fun c hc => by simpa using hzeros c hc, ← hfraction,
      List.reverse_reverse]
  · rw [List.getLast?_reverse]
    intro hzero
    simpa using hlast '0' hzero
  · unfold pointed
    split
    · next hnone => rw [if_pos hnone, List.append_nil]
    · next hsome => rw [if_neg hsome]

theorem pointed_zeros (f : GeneralFormat) (whole : List Char) (k : ℕ) :
    f.pointed whole (List.replicate k '0') = whole := by
  have hnone : (List.replicate k '0').dropWhile (· = '0') = [] := by
    rw [List.dropWhile_eq_nil_iff]
    intro c hc
    exact decide_eq_true (List.eq_of_mem_replicate hc)
  rw [pointed, List.reverse_replicate, hnone]
  rfl

/-- The digits around the point make up the rounded number. -/
theorem exists_positional (places num den : ℕ) :
    ∃ whole fraction, positional places num den = (whole, fraction) ∧
      (whole ≠ [] ∧ AreDigits whole) ∧ (AreDigits fraction ∧ fraction.length = places) ∧
      Numeral.value 10 (whole ++ fraction) = divHalfEven (num * 10 ^ places) den := by
  unfold positional
  dsimp only
  generalize divHalfEven (num * Nat.pow 10 places) den = n
  have hvalue := value_padded (places + 1 - (Nat.toDigits 10 n).length) n
  have hdigits := areDigits_padded (places + 1 - (Nat.toDigits 10 n).length) n
  have hlength : places < (List.replicate (places + 1 - (Nat.toDigits 10 n).length) '0' ++
      Nat.toDigits 10 n).length := by
    rw [List.length_append, List.length_replicate]
    omega
  generalize List.replicate _ '0' ++ Nat.toDigits 10 n = padded at *
  refine ⟨_, _, List.splitAt_eq, ⟨?_, fun c hc => hdigits c (List.mem_of_mem_take hc)⟩,
    ⟨fun c hc => hdigits c (List.mem_of_mem_drop hc), ?_⟩, ?_⟩
  · rw [ne_eq, List.take_eq_nil_iff, not_or, ← List.length_eq_zero_iff]
    omega
  · rw [List.length_drop]
    omega
  · rw [List.take_append_drop]
    exact hvalue

/-! ## The text of a positive number -/

/-- The digits of the parts, with a point if there are any behind it. -/
def mantissa (parts : RealParts) : List Char :=
  parts.whole ++ if parts.fraction = [] then [] else '.' :: parts.fraction

/-- The number that the parts denote. -/
def denoted (parts : RealParts) : ℚ :=
  Numeral.value 10 (parts.whole ++ parts.fraction) * 10 ^ (parts.exponent - parts.fraction.length)

/-- The text in general format of a number of `p` significant digits, with the parts of it. -/
structure IsGeneral (p : ℕ) (s : Significant) (parts : RealParts) (text : List Char) : Prop where
  whole : parts.whole ≠ [] ∧ AreDigits parts.whole
  fraction : AreDigits parts.fraction
  /-- The point stands in front of digits of which the last is not zero, or not at all. -/
  trimmed : parts.fraction.getLast? ≠ some '0'
  /-- One digit in front of the point, and an exponent with its sign and two digits or more. -/
  scientific : s.exponent < -4 ∨ p ≤ s.exponent →
    parts.whole.length = 1 ∧ parts.exponent = s.exponent ∧ ∃ digits, 2 ≤ digits.length ∧
      Numeral.Denotes 10 digits s.exponent.natAbs ∧
      text = mantissa parts ++ 'e' :: (if s.exponent < 0 then '-' else '+') :: digits
  positional : ¬ (s.exponent < -4 ∨ p ≤ s.exponent) → parts.exponent = 0 ∧ text = mantissa parts
  denotes : denoted parts = s.digits * 10 ^ (s.exponent - p + 1)

/-- Zeros at the end of the fraction make no difference. -/
theorem denoted_of_zeros {whole kept : List Char} {k : ℕ} (e : ℤ) :
    denoted ⟨whole, kept, e⟩ = Numeral.value 10 (whole ++ (kept ++ List.replicate k '0')) *
      10 ^ (e - (kept ++ List.replicate k '0').length) := by
  rw [denoted, ← List.append_assoc, Numeral.value_append 10 (whole ++ kept), Numeral.value_zeros,
    List.length_append, List.length_replicate, add_zero]
  push_cast
  rw [mul_assoc, ← zpow_natCast, ← zpow_add₀ (by norm_num)]
  congr 2
  omega

theorem exists_exponentText (e : ℤ) : ∃ digits, 2 ≤ digits.length ∧
    Numeral.Denotes 10 digits e.natAbs ∧
    generalFormat.exponentText e = 'e' :: (if e < 0 then '-' else '+') :: digits := by
  refine ⟨_, ?_, ?_, rfl⟩
  · have hwidth : generalFormat.exponentWidth = 2 := rfl
    rw [List.length_append, List.length_replicate, hwidth]
    omega
  · exact denotes_ten_iff.mpr ⟨by simp [Nat.toDigits_ne_nil], areDigits_padded _ _,
      value_padded _ _⟩

theorem length_toDigits {p n : ℕ} (hp : 0 < p) (h : 10 ^ (p - 1) ≤ n ∧ n < 10 ^ p) :
    (Nat.toDigits 10 n).length = p := by
  have hle : (Nat.toDigits 10 n).length ≤ p := (Nat.length_toDigits_le_iff (by decide) hp).mpr h.2
  have hpos : 0 < (Nat.toDigits 10 n).length := Nat.length_toDigits_pos
  have hnot : ¬ (0 < p - 1 ∧ (Nat.toDigits 10 n).length ≤ p - 1) := by
    rintro ⟨hmore, hshort⟩
    have hlt := (Nat.length_toDigits_le_iff (by decide) hmore).mp hshort
    omega
  omega

variable {p num den : ℕ}

theorem exists_isGeneral_scientific {s : Significant} (hp : 0 < p)
    (hs : 10 ^ (p - 1) ≤ s.digits ∧ s.digits < 10 ^ p)
    (he : s.exponent < -4 ∨ p ≤ s.exponent) :
    ∃ parts, IsGeneral p s parts
      (generalFormat.pointed ((Nat.toDigits 10 s.digits).take 1)
        ((Nat.toDigits 10 s.digits).drop 1) ++ generalFormat.exponentText s.exponent) := by
  have hlength := length_toDigits hp hs
  have hvalue := Numeral.value_toDigits s.digits
  have hdigits := areDigits_toDigits s.digits
  generalize Nat.toDigits 10 s.digits = digits at *
  obtain ⟨kept, k, hfraction, hlast, hpointed⟩ :=
    exists_pointed generalFormat (digits.take 1) (digits.drop 1)
  obtain ⟨power, hwidth, hpower, hexponent⟩ := exists_exponentText s.exponent
  have hrest : (digits.drop 1).length = p - 1 := by rw [List.length_drop, hlength]
  rw [hpointed, hexponent]
  refine ⟨⟨digits.take 1, kept, s.exponent⟩, ⟨?_, ?_⟩, ?_, hlast, fun _ => ?_,
    fun hnot => absurd he hnot, ?_⟩
  · rw [ne_eq, List.take_eq_nil_iff, ← List.length_eq_zero_iff]
    omega
  · exact fun c hc => hdigits c (List.mem_of_mem_take hc)
  · exact fun c hc => hdigits c (List.mem_of_mem_drop (hfraction ▸ List.mem_append_left _ hc))
  · exact ⟨by rw [List.length_take]; omega, rfl, power, hwidth, hpower, rfl⟩
  · rw [denoted_of_zeros, ← hfraction, List.take_append_drop, hvalue, hrest]
    congr 2
    omega

theorem exists_isGeneral_positional {s : Significant} (hp : 0 < p) (hnum : 0 < num)
    (hden : 0 < den) (hs : IsRounded p (num / den) s) (he : ¬ (s.exponent < -4 ∨ p ≤ s.exponent)) :
    ∃ parts, IsGeneral p s parts
      (generalFormat.pointed (Decimal.positional (p - 1 - s.exponent).toNat num den).1
        (Decimal.positional (p - 1 - s.exponent).toNat num den).2) := by
  obtain ⟨whole, fraction, hsplit, hwhole, ⟨hdigits, hplaces⟩, hvalue⟩ :=
    exists_positional (p - 1 - s.exponent).toNat num den
  obtain ⟨kept, k, hfraction, hlast, hpointed⟩ := exists_pointed generalFormat whole fraction
  rw [hs.divHalfEven_eq hp hnum hden (by omega)] at hvalue
  rw [hsplit, hpointed]
  refine ⟨⟨whole, kept, 0⟩, hwhole, ?_, hlast, fun hnot => absurd hnot he, fun _ => ⟨rfl, rfl⟩, ?_⟩
  · exact fun c hc => hdigits c (hfraction ▸ List.mem_append_left _ hc)
  · rw [denoted_of_zeros, ← hfraction, hvalue, hplaces]
    congr 2
    omega

/-- The text has the form that is due and denotes the rounded number. -/
theorem exists_isGeneral_magnitude (hp : 0 < p) (hnum : 0 < num) (hden : 0 < den) :
    ∃ parts, IsGeneral p (round p num den) parts (generalFormat.magnitude p num den) := by
  have hs := round_isRounded hp hnum hden
  unfold magnitude
  generalize round p num den = s at hs
  have hleast : generalFormat.leastPositional = -4 := rfl
  simp only [hleast, Bool.or_eq_true, decide_eq_true_eq]
  split
  · next he => exact exists_isGeneral_scientific hp hs.digits he
  · next he => exact exists_isGeneral_positional hp hnum hden hs he

/-! ## What the text depends on -/

/-- Numbers that are rounded alike have the same text. -/
theorem magnitude_eq_of_isRounded (hp : 0 < p) {num' den' : ℕ} (hnum : 0 < num) (hden : 0 < den)
    (hnum' : 0 < num') (hden' : 0 < den') {s : Significant} (hs : IsRounded p (num / den) s)
    (hs' : IsRounded p (num' / den') s) :
    generalFormat.magnitude p num den = generalFormat.magnitude p num' den' := by
  have hround := (round_isRounded hp hnum hden).unique hp hs
  have hround' := (round_isRounded hp hnum' hden').unique hp hs'
  have hleast : generalFormat.leastPositional = -4 := rfl
  unfold magnitude
  simp only [hround, hround', hleast, Bool.or_eq_true, decide_eq_true_eq]
  split
  · rfl
  · next he =>
    have hdigits := hs.divHalfEven_eq hp hnum hden (by omega)
    have hdigits' := hs'.divHalfEven_eq hp hnum' hden' (by omega)
    have hsplit : Decimal.positional (p - 1 - s.exponent).toNat num den =
        Decimal.positional (p - 1 - s.exponent).toNat num' den' := by
      simp only [Decimal.positional, Nat.pow_eq, hdigits, hdigits']
    rw [hsplit]

theorem toDigits_mul_pow {n : ℕ} (hn : 0 < n) (k : ℕ) :
    Nat.toDigits 10 (n * 10 ^ k) = Nat.toDigits 10 n ++ List.replicate k '0' := by
  induction k with
  | zero => simp
  | succ k ih =>
      have hle : 10 ≤ n * 10 ^ (k + 1) := by
        rw [pow_succ, ← mul_assoc]
        exact Nat.le_mul_of_pos_left 10 (Nat.mul_pos hn (by positivity))
      rw [Nat.toDigits_of_base_le (by decide) hle, pow_succ, ← mul_assoc,
        Nat.mul_div_cancel _ (by decide), Nat.mul_mod_left, ih, List.append_assoc,
        List.replicate_succ']
      rfl

/-- A natural number of at most `p` digits is rounded to itself. -/
theorem round_natCast {n : ℕ} (hn : 0 < n) (hlt : n < 10 ^ p) :
    ∃ k, k < p ∧ round p n 1 = ⟨n * 10 ^ k, p - 1 - k⟩ := by
  obtain ⟨hlow, hhigh, hpos⟩ := digitCount_bounds hn
  have hp : 0 < p := by
    refine Nat.pos_of_ne_zero fun hzero => ?_
    rw [hzero] at hlt
    omega
  have hcount : digitCount n ≤ p := by
    have hlt := (Nat.pow_lt_pow_iff_right (by decide)).mp (hlow.trans_lt hlt)
    omega
  obtain ⟨k, hk⟩ := Nat.exists_eq_add_of_le hcount
  have hpow : 10 ^ (p - 1) = 10 ^ (digitCount n - 1) * 10 ^ k := by
    rw [← pow_add]
    congr 1
    omega
  have hround := round_isRounded hp hn one_pos
  refine ⟨k, by omega, hround.unique hp (.of_eq hp ⟨?_, ?_⟩ ?_)⟩
  · rw [hpow]
    exact Nat.mul_le_mul_right _ hlow
  · rw [hk, pow_add]
    exact Nat.mul_lt_mul_of_pos_right hhigh (by positivity)
  · have hplace : (p : ℤ) - 1 - k - p + 1 = -(k : ℤ) := by omega
    dsimp only
    rw [hplace, zpow_neg, zpow_natCast, Nat.cast_one, div_one]
    push_cast
    exact mul_inv_cancel_right₀ (by positivity) _

/-- The text of a natural number of at most `p` digits is these digits. -/
theorem magnitude_natCast {n : ℕ} (hn : 0 < n) (hlt : n < 10 ^ p) :
    generalFormat.magnitude p n 1 = Nat.toDigits 10 n := by
  obtain ⟨k, hk, hround⟩ := round_natCast hn hlt
  have hleast : generalFormat.leastPositional = -4 := rfl
  have hplaces : ((p : ℤ) - 1 - (p - 1 - k)).toNat = k := by omega
  have hsplit : Decimal.positional k n 1 = (Nat.toDigits 10 n, List.replicate k '0') := by
    have hpos : 0 < (Nat.toDigits 10 n).length := Nat.length_toDigits_pos
    have hfilled : k + 1 - ((Nat.toDigits 10 n).length + k) = 0 := by omega
    simp only [Decimal.positional, Nat.pow_eq, divHalfEven_one, toDigits_mul_pow hn,
      List.length_append, List.length_replicate, hfilled, List.replicate_zero, List.nil_append,
      Nat.add_sub_cancel]
    rw [List.splitAt_eq, List.take_left, List.drop_left]
  unfold magnitude
  simp only [hround, hleast, Bool.or_eq_true, decide_eq_true_eq]
  rw [if_neg (by omega), hplaces, hsplit]
  exact pointed_zeros generalFormat _ k

/-! ## Reading the text -/

theorem isReal_mantissa {parts : RealParts} {power : List Char}
    (hwhole : parts.whole ≠ [] ∧ AreDigits parts.whole) (hfraction : AreDigits parts.fraction)
    (hpower : IsPower power parts.exponent) (hreal : parts.fraction ≠ [] ∨ power ≠ []) :
    IsReal (mantissa parts ++ power) parts := by
  obtain ⟨whole, fraction, n⟩ := parts
  unfold mantissa
  dsimp only at *
  split
  · next hempty =>
    subst hempty
    rw [List.append_nil]
    exact .power hwhole.2 hwhole.1 hpower (hreal.resolve_left (· rfl))
  · next hne =>
    rw [List.append_assoc]
    exact .point hwhole.2 hfraction (by simp [hne]) hpower

/-- Without a point and an exponent the text is an integer, and else a real with the parts. -/
theorem IsGeneral.isInteger_or_isReal {s : Significant} {parts : RealParts} {text : List Char}
    (h : IsGeneral p s parts text) :
    (s.exponent < p ∧ ∃ n : ℕ, denoted parts = n ∧ IsInteger .decimal n text) ∨
      IsReal text parts := by
  by_cases he : s.exponent < -4 ∨ p ≤ s.exponent
  · obtain ⟨-, hexponent, digits, -, hdigits, rfl⟩ := h.scientific he
    refine .inr (isReal_mantissa h.whole h.fraction ?_ (.inr (by simp)))
    rw [hexponent]
    split
    · next hneg =>
      have hminus := IsPower.marked (.inl rfl) (.minus hdigits)
      rwa [Int.ofNat_natAbs_of_nonpos hneg.le, neg_neg] at hminus
    · next hpos =>
      have hplus := IsPower.marked (.inl rfl) (.plus hdigits)
      rwa [Int.natAbs_of_nonneg (not_lt.mp hpos)] at hplus
  · obtain ⟨hexponent, rfl⟩ := h.positional he
    by_cases hinteger : parts.fraction = []
    · refine .inl ⟨by omega, Numeral.value 10 parts.whole, ?_, ?_⟩
      · simp [denoted, hinteger, hexponent]
      · exact ⟨_, by simp [mantissa, hinteger, Radix.mark], h.whole.2.denotes h.whole.1⟩
    · have hpower : IsPower [] parts.exponent := hexponent ▸ .none
      have hreal := isReal_mantissa h.whole h.fraction hpower (.inl hinteger)
      rw [List.append_nil] at hreal
      exact .inr hreal

theorem IsGeneral.exists_isNumber {s : Significant} {parts : RealParts} {text : List Char}
    (h : IsGeneral p s parts text) (negative : Bool) : ∃ l, IsNumber negative text l := by
  rcases h.isInteger_or_isReal with ⟨-, n, -, hinteger⟩ | hreal
  · exact ⟨_, .integer hinteger⟩
  · exact ⟨_, .real hreal⟩

/-! ## The text of a finite number -/

theorem general_eq {x : Float} (hfinite : Binary64.isFinite x) (hne : Binary64.significand x ≠ 0)
    (precision : ℕ) :
    (general precision x).toList = (if Binary64.isNegative x then ['-'] else []) ++
      generalFormat.magnitude (max 1 precision) (Binary64.numerator x)
        (Binary64.denominator x) := by
  simp only [general, write, Binary64.isNaN_of_isFinite hfinite, hfinite, hne, Bool.false_eq_true,
    if_false, Bool.not_true, String.toList_ofList]

theorem general_eq_of_zero {x : Float} (hfinite : Binary64.isFinite x)
    (hzero : Binary64.significand x = 0) (precision : ℕ) :
    (general precision x).toList = (if Binary64.isNegative x then ['-'] else []) ++ ['0'] := by
  simp only [general, write, Binary64.isNaN_of_isFinite hfinite, hfinite, hzero, Bool.false_eq_true,
    if_false, if_true, Bool.not_true, String.toList_ofList]

/-- Numbers of one sign that are rounded alike have the same text. -/
theorem general_eq_of_isRounded {x y : Float}
    (hx : Binary64.isFinite x ∧ Binary64.significand x ≠ 0)
    (hy : Binary64.isFinite y ∧ Binary64.significand y ≠ 0)
    (hsign : Binary64.isNegative x = Binary64.isNegative y) (hp : 0 < p) {s : Significant}
    (hs : IsRounded p (Binary64.absValue x) s) (ht : IsRounded p (Binary64.absValue y) s) :
    general p x = general p y := by
  rw [Binary64.absValue_eq] at hs ht
  have hmagnitude := magnitude_eq_of_isRounded hp (Binary64.numerator_pos hx.2)
    (Binary64.denominator_pos x) (Binary64.numerator_pos hy.2) (Binary64.denominator_pos y) hs ht
  rw [← String.toList_inj, general_eq hx.1 hx.2, general_eq hy.1 hy.2, Nat.max_eq_right hp, hsign,
    hmagnitude]

/-- A number that is rounded to an integer of at most so many digits has the text of the integer. -/
theorem general_eq_of_natCast {x : Float} (hfinite : Binary64.isFinite x)
    (hne : Binary64.significand x ≠ 0) (hp : 0 < p) {s : Significant}
    (hs : IsRounded p (Binary64.absValue x) s) {n : ℕ} (hn : 0 < n) (hlt : n < 10 ^ p)
    (hvalue : (s.digits : ℚ) * 10 ^ (s.exponent - p + 1) = n) :
    (general p x).toList =
      (if Binary64.isNegative x then ['-'] else []) ++ Nat.toDigits 10 n := by
  have hexact : IsRounded p ((n : ℕ) / (1 : ℕ) : ℚ) s :=
    .of_eq hp hs.digits (by rw [hvalue, Nat.cast_one, div_one])
  rw [Binary64.absValue_eq] at hs
  rw [general_eq hfinite hne, Nat.max_eq_right hp, magnitude_eq_of_isRounded hp
    (Binary64.numerator_pos hne) (Binary64.denominator_pos x) hn one_pos hs hexact,
    magnitude_natCast hn hlt]

theorem isInteger_zero : IsInteger .decimal 0 ['0'] :=
  ⟨_, rfl, (areDigits_zeros 1).denotes (by simp)⟩

/-- The text of a finite number is its sign and a text that begins with a digit. -/
theorem number_general {x : Float} (h : Binary64.isFinite x) (p : ℕ) :
    ∃ l, number (general p x).toList = .ok (some l) := by
  have hbody : ∃ body l, (general p x).toList =
      (if Binary64.isNegative x then ['-'] else []) ++ body ∧
        IsNumber (Binary64.isNegative x) body l := by
    by_cases hzero : Binary64.significand x = 0
    · exact ⟨_, _, general_eq_of_zero h hzero p, .integer isInteger_zero⟩
    · obtain ⟨parts, hparts⟩ := exists_isGeneral_magnitude (p := max 1 p) (by omega)
        (Binary64.numerator_pos hzero) (Binary64.denominator_pos x)
      obtain ⟨l, hl⟩ := hparts.exists_isNumber (Binary64.isNegative x)
      exact ⟨_, l, general_eq h hzero p, hl⟩
  obtain ⟨body, l, htext, hnumber⟩ := hbody
  refine ⟨l, (number_eq_some ?_).mpr hnumber⟩
  rw [htext]
  exact splitSign_sign_append _ hnumber.begins

/-- The text of a finite number other than zero denotes, with its sign, exactly the absolute value
rounded to so many significant digits, of which there is at least one. -/
theorem general_denotes_rounded {x : Float} (hfinite : Binary64.isFinite x)
    (hne : Binary64.significand x ≠ 0) (precision : ℕ) :
    let p := max 1 precision
    ∃ s : Significant, (∀ t, IsRounded p (Binary64.absValue x) t ↔ t = s) ∧
      ∃ parts text, IsGeneral p s parts text ∧
        (general precision x).toList = (if Binary64.isNegative x then ['-'] else []) ++ text := by
  intro p
  have hp : 0 < p := by omega
  have hnum := Binary64.numerator_pos hne
  have hden := Binary64.denominator_pos x
  have hs := round_isRounded hp hnum hden
  obtain ⟨parts, hparts⟩ := exists_isGeneral_magnitude hp hnum hden
  refine ⟨_, fun t => ?_, parts, _, hparts, general_eq hfinite hne precision⟩
  rw [Binary64.absValue_eq]
  constructor
  · exact fun ht => ht.unique hp hs
  · rintro rfl
    exact hs

/-- A number just above `-10 ^ (-4)`, where rounding carries into the least exponent that is written
without one. -/
theorem general_denotes_rounded_carry :
    let x := Float.ofBits 0xbf1a369e32eca291
    Binary64.isFinite x ∧ Binary64.significand x ≠ 0 ∧ general 3 x = "-0.0001" ∧
      IsRounded 3 (Binary64.absValue x) ⟨100, -4⟩ ∧
      ∃ parts, IsGeneral 3 ⟨100, -4⟩ parts "0.0001".toList := by
  intro x
  have hfinite : Binary64.isFinite x := by decide +kernel
  have hne : Binary64.significand x ≠ 0 := by decide +kernel
  have hwritten : general 3 x = "-0.0001" := by decide +kernel
  have hrounded : round 3 (Binary64.numerator x) (Binary64.denominator x) = ⟨100, -4⟩ := by
    decide +kernel
  have hs := round_isRounded (p := 3) (by decide) (Binary64.numerator_pos hne)
    (Binary64.denominator_pos x)
  rw [hrounded, ← Binary64.absValue_eq] at hs
  obtain ⟨s, hunique, parts, text, hgeneral, htext⟩ := general_denotes_rounded hfinite hne 3
  obtain rfl := (hunique _).mp hs
  have hnegative : Binary64.isNegative x := by decide +kernel
  rw [hwritten, if_pos hnegative] at htext
  obtain rfl : "0.0001".toList = text := List.cons.inj htext |>.2
  exact ⟨hfinite, hne, hwritten, hs, parts, hgeneral⟩

end ReversePolish.Decimal.GeneralFormat
