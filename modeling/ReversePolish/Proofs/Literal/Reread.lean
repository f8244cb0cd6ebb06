import ReversePolish.Proofs.Binary64.Integer
import ReversePolish.Proofs.Decimal.General
import ReversePolish.Proofs.Decimal.Reading

/-! # Texts of reals that are read again

The text of a finite number is read as the number nearest to what it denotes, or as an integer where
it denotes one without a point or an exponent. With seventeen digits that is the number itself; with
fifteen it is one that has the same text. -/

namespace ReversePolish

theorem Value.isScalar_of_toReal? {v : Value} {x : Float} (h : v.toReal? = some x) :
    v.isScalar := by
  have hsome := Option.isSome_of_eq_some h
  rwa [toReal?, Option.isSome_map] at hsome

/-- An integer as a real. -/
theorem Value.toReal?_of_integer? {v : Value} {n : ℤ} (h : v.integer? = some n) :
    v.toReal? = some (Binary64.ofInt n) := by
  cases v with
  | scalar s =>
      cases s with
      | int w => exact congrArg (some ∘ Binary64.ofInt) (Option.some.inj h)
      | bigInt m => exact congrArg (some ∘ Binary64.ofInt) (Option.some.inj h)
      | real x => cases h
  | _ => cases h

namespace Literal

open Binary64 Decimal Decimal.GeneralFormat

/-! ## What is read -/

/-- A text with a point or an exponent is read as the number nearest to what it denotes. -/
theorem toBinary64_eq_nearest (negative : Bool) (parts : RealParts) :
    ∃ num den : ℕ, 0 < den ∧ (num / den : ℚ) = denoted parts ∧
      parts.toBinary64 negative = nearest negative num den := by
  refine ⟨_, _, ?_, ?_, toBinary64_eq _ _ _⟩
  · positivity
  · rw [scientific_quotient, denoted]

/-- What may be read for `D`, the absolute value of a number rounded to `p` significant digits. -/
inductive ReadsAs (negative : Bool) (p : ℕ) (s : Significant) : Literal → Prop where
  | integer {n : ℕ} (hs : s.exponent < p) (hn : (s.digits : ℚ) * 10 ^ (s.exponent - p + 1) = n) :
      ReadsAs negative p s { value := .ofInt (if negative then -n else n) }
  | real {num den : ℕ} (hden : 0 < den)
      (hvalue : (num / den : ℚ) = s.digits * 10 ^ (s.exponent - p + 1)) :
      ReadsAs negative p s { value := .real (nearest negative num den) }

/-- The text of a finite number other than zero is read as what the rounded number is. -/
theorem exists_read_general {x : Float} (hfinite : isFinite x) (hne : significand x ≠ 0) {p : ℕ}
    (hp : 0 < p) : ∃ s l, IsRounded p (absValue x) s ∧ read (general p x) = .ok (some l) ∧
      ReadsAs (isNegative x) p s l := by
  have hnum := numerator_pos hne
  have hden := denominator_pos x
  have hs := round_isRounded hp hnum hden
  obtain ⟨parts, hparts⟩ := exists_isGeneral_magnitude hp hnum hden
  rw [← absValue_eq] at hs
  have htext := general_eq hfinite hne p
  rw [Nat.max_eq_right hp] at htext
  rcases hparts.isInteger_or_isReal with ⟨hexponent, n, hn, hinteger⟩ | hreal
  · have hsign := splitSign_sign_append (isNegative x) hinteger.begins
    rw [hparts.denotes] at hn
    refine ⟨_, _, hs, read_of_number ?_, .integer hexponent hn⟩
    rw [htext]
    exact number_of_integer hsign hinteger
  · have hsign := splitSign_sign_append (isNegative x) hreal.begins
    obtain ⟨num, den, hpos, hvalue, hnearest⟩ := toBinary64_eq_nearest (isNegative x) parts
    rw [hparts.denotes] at hvalue
    refine ⟨_, _, hs, read_of_number ?_, .real hpos hvalue⟩
    rw [htext, ← hnearest]
    exact number_of_real hsign hreal

theorem read_general_of_zero {x : Float} (hfinite : isFinite x) (hzero : significand x = 0)
    (p : ℕ) : read (general p x) = .ok (some { value := .ofInt 0 }) := by
  have hsign := splitSign_sign_append (isNegative x) isInteger_zero.begins
  have hread := number_of_integer hsign isInteger_zero
  rw [← general_eq_of_zero hfinite hzero p, Nat.cast_zero, neg_zero, ite_self] at hread
  exact read_of_number hread

/-! ## Seventeen digits -/

/-- With seventeen digits or more the number is nearest to its text. -/
theorem near_of_isRounded {x : ℚ} (hx : 0 < x) {p : ℕ} (hp : 17 ≤ p) {s : Significant}
    (hs : IsRounded p x s) : 2 ^ 54 * |s.digits * 10 ^ (s.exponent - p + 1) - x| < x := by
  have herror := hs.error (by omega) hx
  have hpow : (10 : ℚ) ^ 16 ≤ 10 ^ (p - 1) := pow_le_pow_right₀ (by norm_num) (by omega)
  have hnonneg := abs_nonneg (s.digits * 10 ^ (s.exponent - p + 1) - x)
  generalize |s.digits * 10 ^ (s.exponent - p + 1) - x| = error at *
  nlinarith

/-- A number of more than one limb has all of its bits in front. -/
theorem exists_eq_mul_two_pow {x : Float} (hx : isFinite x) (hgreat : 2 ^ 63 ≤ absValue x) :
    ∃ m k : ℕ, m < 2 ^ 53 ∧ absValue x = (m * 2 ^ k : ℕ) := by
  have hcanonical := isCanonical hx
  have hexponent : 0 ≤ exponent x := by
    by_contra hneg
    have hplace : (2 : ℚ) ^ exponent x ≤ 1 := zpow_le_one_of_nonpos₀ one_le_two (by omega)
    have hm : (significand x : ℚ) < 2 ^ 53 := by exact_mod_cast hcanonical.lt
    have hpos : (0 : ℚ) < 2 ^ exponent x := zpow_pos two_pos _
    rw [absValue] at hgreat
    nlinarith
  obtain ⟨k, hk⟩ := Int.eq_ofNat_of_zero_le hexponent
  refine ⟨significand x, k, hcanonical.lt, ?_⟩
  rw [absValue, hk, zpow_natCast]
  push_cast
  rfl

/-- Where the text is an integer of more than one limb, that is the number itself. -/
theorem leadingBits_of_isRounded {x : Float} (hx : isFinite x) (hpos : 0 < absValue x) {p : ℕ}
    (hp : 17 ≤ p) {s : Significant} (hs : IsRounded p (absValue x) s) (hexponent : s.exponent < p)
    {n : ℕ} (hn : (s.digits : ℚ) * 10 ^ (s.exponent - p + 1) = n) : leadingBits n = n := by
  rcases lt_or_ge n (2 ^ limbBits) with hlt | hge
  · exact leadingBits_of_lt hlt
  · have hnear := near_of_isRounded hpos hp hs
    have hge : (2 : ℚ) ^ 64 ≤ n := by exact_mod_cast hge
    have hgreat : 2 ^ 63 ≤ absValue x := by
      rw [hn] at hnear
      linarith [le_abs_self ((n : ℚ) - absValue x)]
    obtain ⟨m, k, hm, hvalue⟩ := exists_eq_mul_two_pow hx hgreat
    rw [hvalue] at hpos hs
    have hexact := hs.eq_of_natCast (by omega) (by exact_mod_cast hpos) hexponent
    obtain rfl : n = m * 2 ^ k := by exact_mod_cast hn.symm.trans hexact
    exact leadingBits_mul_two_pow (hm.trans (by decide)) k

/-- The text of a finite number with seventeen significant digits or more is read as a scalar, which
as a real is that number again; zero loses its sign. -/
theorem seventeen_digits_identify {x : Float} (hx : isFinite x) {p : ℕ} (hp : 17 ≤ p) :
    ∃ l, read (general p x) = .ok (some l) ∧ l.value.isScalar ∧
      l.value.toReal? = some (if significand x = 0 then zero false else x) := by
  suffices h : ∃ l, read (general p x) = .ok (some l) ∧
      l.value.toReal? = some (if significand x = 0 then zero false else x) by
    obtain ⟨l, hread, hreal⟩ := h
    exact ⟨l, hread, Value.isScalar_of_toReal? hreal, hreal⟩
  by_cases hzero : significand x = 0
  · rw [if_pos hzero]
    exact ⟨_, read_general_of_zero hx hzero p,
      Value.toReal?_of_integer? (Value.integer?_ofInt 0)⟩
  · rw [if_neg hzero]
    have hpos := absValue_pos hzero
    obtain ⟨s, l, hs, hread, hl⟩ := exists_read_general hx hzero (show 0 < p by omega)
    have hnear := near_of_isRounded hpos hp hs
    refine ⟨l, hread, ?_⟩
    cases hl with
    | @integer n hexponent hn =>
        have hbits := leadingBits_of_isRounded hx hpos hp hs hexponent hn
        rw [hn] at hnear
        have hpos : 0 < n := by
          refine Nat.pos_of_ne_zero fun hnone => ?_
          rw [hnone, Nat.cast_zero, zero_sub, abs_neg, abs_of_pos hpos] at hnear
          linarith
        refine (Value.toReal?_of_integer? (Value.integer?_ofInt _)).trans (congrArg some ?_)
        rw [ofInt_signed hpos, hbits]
        exact nearest_eq_of_near hx one_pos (by simpa using hnear)
    | @real num den hden hvalue =>
        rw [← hvalue] at hnear
        exact congrArg some (nearest_eq_of_near hx hden hnear)

/-- The largest number, with as many digits as identify it. -/
theorem seventeen_digits_identify_largest :
    let x := Float.ofBits 0x7fefffffffffffff
    isFinite x ∧ 17 ≤ 17 ∧ general 17 x = "1.7976931348623157e+308" ∧
      ∃ l, read "1.7976931348623157e+308" = .ok (some l) ∧ l.value.isScalar ∧
        l.value.toReal? = some x := by
  intro x
  have hfinite : isFinite x := by decide +kernel
  have hne : significand x ≠ 0 := by decide +kernel
  have hwritten : general 17 x = "1.7976931348623157e+308" := by decide +kernel
  have hread := seventeen_digits_identify hfinite (p := 17) (by decide)
  rw [hwritten, if_neg hne] at hread
  exact ⟨hfinite, by decide, hwritten, hread⟩

/-! ## Fifteen digits -/

theorem format_signed {n : ℕ} (hn : 0 < n) (negative : Bool) :
    ((Value.ofInt (if negative then -n else n)).format {}).toList =
      (if negative then ['-'] else []) ++ Nat.toDigits 10 n := by
  rw [Value.format_of_integer? (Value.integer?_ofInt _), String.toList_ofList]
  cases negative <;> simp [Numeral.write, Radix.mark, Radix.base, hn, Numeral.digits_ten]

/-- Half a place above `1.79769313486231e+308`, the greatest text of fifteen digits that is read as a
finite number. -/
def reentryBound : ℚ := (179769313486231 + 1 / 2) * 10 ^ (294 : ℤ)

theorem mul_lt_overflowBound_iff (n : ℕ) :
    (n : ℚ) * 10 ^ (294 : ℤ) < overflowBound ↔ n ≤ 179769313486231 := by
  have hlow : 179769313486231 * 10 ^ 294 < (2 ^ 54 - 1) * 2 ^ 970 := by decide +kernel
  have hhigh : (2 ^ 54 - 1) * 2 ^ 970 ≤ (179769313486231 + 1) * 10 ^ 294 := by decide +kernel
  have hplace (k : ℕ) : (10 : ℚ) ^ (k : ℤ) = (10 ^ k : ℕ) := by
    rw [zpow_natCast, Nat.cast_pow, Nat.cast_ofNat]
  have hcast := hplace 294
  rw [Nat.cast_ofNat] at hcast
  rw [overflowBound_eq, hcast, ← Nat.cast_mul, Nat.cast_lt]
  generalize 10 ^ 294 = unit at hlow hhigh
  constructor
  · intro hlt
    exact Nat.le_of_lt_succ (Nat.lt_of_mul_lt_mul_right (hlt.trans_le hhigh))
  · intro hle
    exact (Nat.mul_le_mul_right _ hle).trans_lt hlow

section Fifteen

variable {x : Float} (hfinite : isFinite x) (hnormal : 2 ^ 52 ≤ significand x) {s : Significant}
  (hs : IsRounded 15 (absValue x) s)

include hfinite hs

/-- The text denotes a number below the greatest that is rounded to a finite one where the number
itself is below the bound. -/
theorem lt_overflowBound_iff (hpos : 0 < absValue x) :
    (s.digits : ℚ) * 10 ^ (s.exponent - (15 : ℕ) + 1) < overflowBound ↔
      absValue x < reentryBound := by
  obtain ⟨q, hq, hvalue⟩ := hs.nearest
  have hle : q ≤ 10 ^ 15 := hq.le_of_ge (scaled_bounds (by decide) hpos).2
  obtain ⟨hlow, hhigh⟩ := log_bounds hpos
  have hmono {e f : ℤ} (h : e ≤ f) : (10 : ℚ) ^ e ≤ 10 ^ f := zpow_le_zpow_right₀ (by norm_num) h
  have hten (k : ℕ) (e : ℤ) : ((10 ^ k : ℕ) : ℚ) * 10 ^ e = 10 ^ (k + e) := by
    rw [Nat.cast_pow, Nat.cast_ofNat, ← zpow_natCast, ← zpow_add₀ (by norm_num)]
  have hunit : (0 : ℚ) < 10 ^ (294 : ℤ) := by positivity
  rw [← hvalue]
  generalize Int.log 10 (absValue x) = e at *
  rcases Int.lt_trichotomy e 308 with hlt | rfl | hgt
  · have hhead : (10 : ℚ) ^ (e + 1) ≤ (10 ^ 14 : ℕ) * 10 ^ (294 : ℤ) := by
      rw [hten]
      exact hmono (by omega)
    have hplace : (q : ℚ) * 10 ^ (e - (15 : ℕ) + 1) ≤ (10 ^ 14 : ℕ) * 10 ^ (294 : ℤ) := by
      calc (q : ℚ) * 10 ^ (e - (15 : ℕ) + 1) ≤ (10 ^ 15 : ℕ) * 10 ^ (e - (15 : ℕ) + 1) :=
            mul_le_mul_of_nonneg_right (by exact_mod_cast hle) (by positivity)
        _ ≤ (10 ^ 14 : ℕ) * 10 ^ (294 : ℤ) := by
            rw [hten, hten]
            exact hmono (by omega)
    have hbound := (mul_lt_overflowBound_iff (10 ^ 14)).mpr (by decide)
    refine iff_of_true (hplace.trans_lt hbound) (hhigh.trans_le (hhead.trans ?_))
    rw [reentryBound]
    exact mul_le_mul_of_nonneg_right (by norm_num) hunit.le
  · have hscaled := hq.le_iff_of_odd (n := 179769313486231) (by decide)
    have hplace : (308 : ℤ) - (15 : ℕ) + 1 = 294 := by norm_num
    rw [hplace] at hscaled ⊢
    rw [mul_lt_overflowBound_iff, hscaled, div_lt_iff₀ hunit, reentryBound, Nat.cast_ofNat]
  · -- There is no such finite number.
    have hgreat : overflowBound ≤ (10 ^ 15 : ℕ) * 10 ^ (294 : ℤ) :=
      not_lt.mp ((mul_lt_overflowBound_iff (10 ^ 15)).not.mpr (by decide))
    have hhead : ((10 ^ 15 : ℕ) : ℚ) * 10 ^ (294 : ℤ) ≤ 10 ^ e := by
      rw [hten]
      exact hmono (by omega)
    exact absurd (absValue_lt_overflowBound hfinite) (not_lt.mpr (hgreat.trans (hhead.trans hlow)))

include hnormal

/-- The text of a normal number denotes one that is at least half the least of them. -/
theorem rounded_ge :
    (2 : ℚ) ^ (-1023 : ℤ) ≤ s.digits * 10 ^ (s.exponent - (15 : ℕ) + 1) := by
  have hge := absValue_ge_of_normal hfinite hnormal
  have hpos : (0 : ℚ) < 2 ^ (-1022 : ℤ) := zpow_pos two_pos _
  have hhalf : (2 : ℚ) ^ (-1023 : ℤ) * 2 = 2 ^ (-1022 : ℤ) := (zpow_add_one₀ two_ne_zero _).symm
  have herror := hs.error (by decide) (hpos.trans_le hge)
  obtain ⟨hbelow, -⟩ := abs_le.mp
    (le_refl |s.digits * 10 ^ (s.exponent - (15 : ℕ) + 1) - absValue x|)
  generalize (2 : ℚ) ^ (-1022 : ℤ) = least at *
  generalize (2 : ℚ) ^ (-1023 : ℤ) = half at *
  generalize |s.digits * 10 ^ (s.exponent - (15 : ℕ) + 1) - absValue x| = error at *
  norm_num at herror
  linarith

/-- What is read of the text with a point or an exponent has the same text or is infinite. -/
theorem general_nearest {num den : ℕ} (hden : 0 < den)
    (hvalue : (num / den : ℚ) = s.digits * 10 ^ (s.exponent - (15 : ℕ) + 1)) :
    general 15 (nearest (isNegative x) num den) = if (num / den : ℚ) < overflowBound
      then general 15 x else if isNegative x then "-inf" else "inf" := by
  have hge := rounded_ge hfinite hnormal hs
  rw [← hvalue] at hge
  have hpos : (0 : ℚ) < num / den := (zpow_pos two_pos _).trans_le hge
  have hnum := num_pos_of_quotient_pos hpos
  split
  · next hlt =>
    have herror := nearest_relative_error hnum hden hlt (isNegative x) hge
    have hnonneg := abs_nonneg (absValue (nearest (isNegative x) num den) - num / den)
    have hread : IsRounded 15 (absValue (nearest (isNegative x) num den)) s := by
      refine .of_near (by decide) hs.digits ?_
      rw [← hvalue, abs_sub_comm]
      linarith only [herror, hpos, hnonneg]
    refine general_eq_of_isRounded ⟨isFinite_nearest hnum hden hlt _, fun hzero => ?_⟩
      ⟨hfinite, ((Nat.two_pow_pos 52).trans_le hnormal).ne'⟩
      (isNegative_nearest hnum hden hlt _) (by decide) hread hs
    rw [absValue, hzero, Nat.cast_zero, zero_mul, zero_sub, abs_neg, abs_of_pos hpos] at herror
    linarith only [herror, hpos]
  · next hge =>
    rw [nearest_of_ge hnum hden (not_lt.mp hge)]
    have hinfinite (negative : Bool) :
        general 15 (infinity negative) = if negative then "-inf" else "inf" := by
      cases negative <;> decide +kernel
    exact hinfinite _

/-- An integer that is read of the text has the same text. -/
theorem format_integer {n : ℕ} (hexponent : s.exponent < (15 : ℕ))
    (hn : (s.digits : ℚ) * 10 ^ (s.exponent - (15 : ℕ) + 1) = n) :
    (Value.ofInt (if isNegative x then -n else n)).format {} = general 15 x := by
  have hge := rounded_ge hfinite hnormal hs
  have hlt := hs.lt_pow hexponent
  rw [hn] at hge hlt
  have hpos : 0 < n := by exact_mod_cast (zpow_pos two_pos _).trans_le hge
  rw [← String.toList_inj, format_signed hpos, general_eq_of_natCast hfinite
    ((Nat.two_pow_pos 52).trans_le hnormal).ne' (by decide) hs hpos (by exact_mod_cast hlt) hn]

end Fifteen

/-- The text of a normal number is read as a scalar, and this has the same text again. Only the
numbers from `reentryBound` on, whose text denotes one beyond the largest, come back infinite. -/
theorem displayed_real_reads_back {x : Float} (hfinite : isFinite x)
    (hnormal : 2 ^ 52 ≤ significand x) :
    ∃ l, read ((Value.real x).format {}) = .ok (some l) ∧ l.value.isScalar ∧
      l.value.format {} = if absValue x < reentryBound then (Value.real x).format {}
        else if isNegative x then "-inf" else "inf" := by
  have hne : significand x ≠ 0 := ((Nat.two_pow_pos 52).trans_le hnormal).ne'
  have htext : (Value.real x).format {} = general 15 x := rfl
  obtain ⟨s, l, hs, hread, hl⟩ := exists_read_general hfinite hne (show 0 < 15 by decide)
  have hbound := lt_overflowBound_iff hfinite hs (absValue_pos hne)
  refine ⟨l, hread, ?_⟩
  cases hl with
  | @integer n hexponent hn =>
      have hsmall : absValue x < reentryBound := by
        have hone := (mul_lt_overflowBound_iff 1).mpr (by decide)
        have hplace : (10 : ℚ) ^ 15 ≤ 10 ^ (294 : ℤ) := by
          rw [← zpow_natCast]
          exact zpow_le_zpow_right₀ (by norm_num) (by decide)
        rw [Nat.cast_one, one_mul] at hone
        exact hbound.mp ((hs.lt_pow hexponent).trans_le (hplace.trans hone.le))
      rw [if_pos hsmall, htext]
      exact ⟨Value.isScalar_of_toReal? (Value.toReal?_of_integer? (Value.integer?_ofInt _)),
        format_integer hfinite hnormal hs hexponent hn⟩
  | @real num den hden hvalue =>
      rw [← if_congr hbound rfl rfl, ← hvalue, htext]
      exact ⟨rfl, general_nearest hfinite hnormal hs hden hvalue⟩

/-- The least normal number: its text is read as a smaller one. -/
theorem displayed_real_reads_back_least :
    let x := Float.ofBits 0x0010000000000000
    isFinite x ∧ 2 ^ 52 ≤ significand x ∧ (Value.real x).format {} = "2.2250738585072e-308" ∧
      ∃ l, read "2.2250738585072e-308" = .ok (some l) ∧ l.value.isScalar ∧
        l.value.format {} = "2.2250738585072e-308" := by
  intro x
  have hfinite : isFinite x := by decide +kernel
  have hnormal : 2 ^ 52 ≤ significand x := by decide +kernel
  have hwritten : (Value.real x).format {} = "2.2250738585072e-308" := by decide +kernel
  have hsmall : absValue x < reentryBound := by decide +kernel
  have hread := displayed_real_reads_back hfinite hnormal
  rw [hwritten, if_pos hsmall] at hread
  exact ⟨hfinite, hnormal, hwritten, hread⟩

/-- The text of the largest number is read as infinity. -/
theorem largest_real_not_reentered :
    ¬ ∀ x, isFinite x → 2 ^ 52 ≤ significand x →
      ∃ l, read ((Value.real x).format {}) = .ok (some l) ∧ l.value.isScalar ∧
        l.value.format {} = (Value.real x).format {} := by
  intro h
  let x := Float.ofBits 0x7fefffffffffffff
  obtain ⟨l, hl, -, hformat⟩ := h x (by decide +kernel) (by decide +kernel)
  have htext : (Value.real x).format {} = "1.79769313486232e+308" := by decide +kernel
  have hread : (read "1.79769313486232e+308").map (·.map (·.value.format {})) = .ok (some "inf") := by
    decide +kernel
  rw [htext] at hl hformat
  rw [hl] at hread
  simp [Except.map, hformat] at hread

end Literal

end ReversePolish
