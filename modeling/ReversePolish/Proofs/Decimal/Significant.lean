import ReversePolish.Decimal.Significant
import ReversePolish.Proofs.Rounding

/-! # Numbers rounded to significant digits

A positive number is rounded at the last of the places that its leading digit leaves. Where that
carries into a new digit, rounding once more at the places that are then left changes nothing. -/

namespace ReversePolish.Decimal

/-! ## The leading digit -/

theorem digitCount_bounds {n : ℕ} (hn : 0 < n) :
    10 ^ (digitCount n - 1) ≤ n ∧ n < 10 ^ digitCount n ∧ 0 < digitCount n := by
  have hpos : 0 < (Nat.toDigits 10 n).length := Nat.length_toDigits_pos
  rw [digitCount, if_neg hn.ne']
  refine ⟨?_, (Nat.length_toDigits_le_iff (by decide) hpos).mp le_rfl, hpos⟩
  rcases Nat.eq_zero_or_pos ((Nat.toDigits 10 n).length - 1) with hone | hmore
  · rw [hone]
    exact hn
  · by_contra hlt
    have hle := (Nat.length_toDigits_le_iff (by decide) hmore).mpr (Nat.lt_of_not_le hlt)
    omega

theorem log_eq_of_bounds {x : ℚ} {e : ℤ} (hle : 10 ^ e ≤ x) (hlt : x < 10 ^ (e + 1)) :
    Int.log 10 x = e := by
  have hx : 0 < x := (zpow_pos (by norm_num) e).trans_le hle
  have hlow : e ≤ Int.log 10 x := (Int.zpow_le_iff_le_log (by decide) hx).mp (by exact_mod_cast hle)
  have hhigh : Int.log 10 x < e + 1 :=
    (Int.lt_zpow_iff_log_lt (by decide) hx).mp (by exact_mod_cast hlt)
  omega

theorem log_bounds {x : ℚ} (hx : 0 < x) :
    (10 : ℚ) ^ Int.log 10 x ≤ x ∧ x < (10 : ℚ) ^ (Int.log 10 x + 1) := by
  have hlow := Int.zpow_log_le_self (R := ℚ) (b := 10) (by decide) hx
  have hhigh := Int.lt_zpow_succ_log_self (R := ℚ) (b := 10) (by decide) x
  exact ⟨by exact_mod_cast hlow, by exact_mod_cast hhigh⟩

theorem leadingExponent_eq_log {num den : ℕ} (hnum : 0 < num) (hden : 0 < den) :
    leadingExponent num den = Int.log 10 (num / den : ℚ) := by
  have hnum' : (0 : ℚ) < num := by exact_mod_cast hnum
  have hden' : (0 : ℚ) < den := by exact_mod_cast hden
  unfold leadingExponent
  split
  · next hle =>
    obtain ⟨hlow, hhigh, hpos⟩ := digitCount_bounds (Nat.div_pos hle hden)
    obtain ⟨k, hk⟩ := Nat.exists_eq_add_one.mpr hpos
    rw [hk] at hlow hhigh ⊢
    have hlow : 10 ^ k * den ≤ num := (Nat.le_div_iff_mul_le hden).mp hlow
    have hhigh : num < 10 ^ (k + 1) * den := (Nat.div_lt_iff_lt_mul hden).mp hhigh
    have hexponent : ((k + 1 : ℕ) : ℤ) - 1 = k := by omega
    rw [hexponent]
    refine (log_eq_of_bounds ?_ ?_).symm
    · rw [zpow_natCast, le_div_iff₀ hden']
      exact_mod_cast hlow
    · rw [← Nat.cast_add_one, zpow_natCast, div_lt_iff₀ hden']
      exact_mod_cast hhigh
  · next hlt =>
    obtain ⟨hlow, hhigh, hpos⟩ := digitCount_bounds (Nat.div_pos (show num ≤ den - 1 by omega) hnum)
    obtain ⟨k, hk⟩ := Nat.exists_eq_add_one.mpr hpos
    rw [hk] at hlow hhigh ⊢
    have hlow : 10 ^ k * num ≤ den - 1 := (Nat.le_div_iff_mul_le hnum).mp hlow
    have hhigh : den - 1 < 10 ^ (k + 1) * num := (Nat.div_lt_iff_lt_mul hnum).mp hhigh
    have hlow : num * 10 ^ k < den := by
      rw [Nat.mul_comm]
      omega
    have hhigh : den ≤ num * 10 ^ (k + 1) := by
      rw [Nat.mul_comm]
      omega
    have hexponent : -((k + 1 : ℕ) : ℤ) + 1 = -(k : ℤ) := by omega
    refine (log_eq_of_bounds ?_ ?_).symm
    · rw [zpow_neg, zpow_natCast, inv_le_iff_one_le_mul₀ (by positivity), div_mul_eq_mul_div,
        one_le_div hden']
      exact_mod_cast hhigh
    · rw [hexponent, zpow_neg, zpow_natCast, lt_inv_comm₀ (by positivity) (by positivity), inv_div,
        lt_div_iff₀ hnum', mul_comm]
      exact_mod_cast hlow

/-! ## Significant digits -/

/-- The number rounded at the last of `p` places from its leading digit on, a tie to the even
neighbour. The last of the places moves up where the nearest number has one digit more. -/
structure IsRounded (p : ℕ) (x : ℚ) (s : Significant) : Prop where
  digits : 10 ^ (p - 1) ≤ s.digits ∧ s.digits < 10 ^ p
  nearest : ∃ q : ℕ, IsHalfEven (x / 10 ^ (Int.log 10 x - p + 1)) q ∧
    (q : ℚ) * 10 ^ (Int.log 10 x - p + 1) = s.digits * 10 ^ (s.exponent - p + 1)

variable {p : ℕ} {x : ℚ} {s t : Significant}

/-- The leading one of `p` places. -/
theorem zpow_leading (hp : 0 < p) (e : ℤ) : (10 : ℚ) ^ e = 10 ^ (p - 1) * 10 ^ (e - p + 1) := by
  rw [← zpow_natCast, ← zpow_add₀ (by norm_num)]
  congr 1
  omega

/-- The place in front of `p` others. -/
theorem zpow_carry (p : ℕ) (e : ℤ) : (10 : ℚ) ^ (e + 1) = 10 ^ p * 10 ^ (e - p + 1) := by
  rw [← zpow_natCast, ← zpow_add₀ (by norm_num)]
  congr 1
  omega

theorem log_of_digits (hp : 0 < p) (hs : 10 ^ (p - 1) ≤ s.digits ∧ s.digits < 10 ^ p) :
    Int.log 10 ((s.digits : ℚ) * 10 ^ (s.exponent - p + 1)) = s.exponent := by
  have hlow : (10 : ℚ) ^ (p - 1) ≤ s.digits := by exact_mod_cast hs.1
  have hhigh : (s.digits : ℚ) < 10 ^ p := by exact_mod_cast hs.2
  have hplace : (0 : ℚ) < 10 ^ (s.exponent - p + 1) := by positivity
  refine log_eq_of_bounds ?_ ?_
  · rw [zpow_leading hp]
    exact mul_le_mul_of_nonneg_right hlow hplace.le
  · rw [zpow_carry p s.exponent]
    exact mul_lt_mul_of_pos_right hhigh hplace

theorem IsRounded.unique (hp : 0 < p) (hs : IsRounded p x s) (ht : IsRounded p x t) : s = t := by
  obtain ⟨q, hq, hqs⟩ := hs.nearest
  obtain ⟨r, hr, hrt⟩ := ht.nearest
  obtain rfl := hq.unique hr
  have hvalue := hqs.symm.trans hrt
  have hexponent : s.exponent = t.exponent := by
    rw [← log_of_digits hp hs.digits, ← log_of_digits hp ht.digits, hvalue]
  rw [hexponent] at hvalue
  have hdigits : (s.digits : ℚ) = t.digits := mul_right_cancel₀ (by positivity) hvalue
  cases s
  cases t
  exact congrArg₂ Significant.mk (by exact_mod_cast hdigits) hexponent

/-- Counted in units of the last place, the number has as many digits as there are places. -/
theorem scaled_bounds (hp : 0 < p) (hx : 0 < x) :
    ((10 ^ (p - 1) : ℕ) : ℚ) ≤ x / 10 ^ (Int.log 10 x - p + 1) ∧
      x / 10 ^ (Int.log 10 x - p + 1) ≤ (10 ^ p : ℕ) := by
  have hunit : (0 : ℚ) < 10 ^ (Int.log 10 x - p + 1) := by positivity
  obtain ⟨hlow, hhigh⟩ := log_bounds hx
  rw [zpow_leading hp] at hlow
  rw [zpow_carry p (Int.log 10 x)] at hhigh
  rw [le_div_iff₀ hunit, div_le_iff₀ hunit]
  push_cast
  exact ⟨hlow, hhigh.le⟩

/-- Rounding moves the leading digit up or leaves it. -/
theorem IsRounded.log_le (hp : 0 < p) (hx : 0 < x) (h : IsRounded p x s) :
    Int.log 10 x ≤ s.exponent := by
  obtain ⟨q, hq, hvalue⟩ := h.nearest
  have hle : 10 ^ (p - 1) ≤ q := hq.le_of_le (scaled_bounds hp hx).1
  have hle : (10 : ℚ) ^ (p - 1) ≤ q := by exact_mod_cast hle
  have hlow : (10 : ℚ) ^ Int.log 10 x ≤ q * 10 ^ (Int.log 10 x - p + 1) := by
    rw [zpow_leading hp]
    exact mul_le_mul_of_nonneg_right hle (by positivity)
  have hpos : (0 : ℚ) < q * 10 ^ (Int.log 10 x - p + 1) :=
    (zpow_pos (by norm_num) _).trans_le hlow
  rw [← log_of_digits hp h.digits, ← hvalue]
  exact (Int.zpow_le_iff_le_log (by decide) hpos).mp (by exact_mod_cast hlow)

/-- Where places are left in front of the last one, the rounded number has at most so many digits. -/
theorem IsRounded.lt_pow (h : IsRounded p x s) (hs : s.exponent < p) :
    (s.digits : ℚ) * 10 ^ (s.exponent - p + 1) < 10 ^ p := by
  have hdigits : (s.digits : ℚ) < 10 ^ p := by exact_mod_cast h.digits.2
  refine lt_of_le_of_lt ?_ hdigits
  exact mul_le_of_le_one_right (Nat.cast_nonneg _)
    (zpow_le_one_of_nonpos₀ (by norm_num) (by omega))

/-- The rounded number is nearest also in units of its own last place, which may be a higher one
than the number was rounded at. -/
theorem IsRounded.isHalfEven (hp : 0 < p) (hx : 0 < x) (h : IsRounded p x s) :
    IsHalfEven (x / 10 ^ (s.exponent - p + 1)) s.digits := by
  obtain ⟨k, hk⟩ := Int.le.dest (h.log_le hp hx)
  obtain ⟨q, hq, hvalue⟩ := h.nearest
  have hplace : (10 : ℚ) ^ (s.exponent - p + 1) = 10 ^ (Int.log 10 x - p + 1) * 10 ^ k := by
    rw [← zpow_natCast, ← zpow_add₀ (by norm_num)]
    congr 1
    omega
  have hdigits : q = s.digits * 10 ^ k := by
    rw [hplace, mul_left_comm, mul_comm] at hvalue
    exact_mod_cast mul_left_cancel₀ (by positivity) hvalue
  rw [hplace, ← div_div]
  exact (hdigits ▸ hq).div_pow

theorem round_isRounded (hp : 0 < p) {num den : ℕ} (hnum : 0 < num) (hden : 0 < den) :
    IsRounded p (num / den) (round p num den) := by
  have hx : (0 : ℚ) < num / den := by positivity
  have hplaces := scaled_bounds hp hx
  have hlog := leadingExponent_eq_log hnum hden
  have hunit : 0 < den * Nat.pow 10 (leadingExponent num den - p + 1).toNat :=
    Nat.mul_pos hden (Nat.pow_pos (by decide))
  have hq := divHalfEven_isHalfEven hunit
    (num * Nat.pow 10 (-(leadingExponent num den - p + 1)).toNat)
  simp only [Nat.pow_eq, scaled_quotient 10, Nat.cast_ofNat] at hq
  unfold round
  dsimp only
  rw [← hlog] at hplaces
  generalize divHalfEven _ _ = d at hq
  have hle := hq.le_of_le hplaces.1
  have hge := hq.le_of_ge hplaces.2
  split
  · next hlt => exact ⟨⟨hle, hlt⟩, d, hlog ▸ hq, by rw [hlog]⟩
  · next hcarry =>
    obtain rfl : d = 10 ^ p := hge.antisymm (Nat.le_of_not_lt hcarry)
    have hlead : 10 ^ p / 10 = 10 ^ (p - 1) := Nat.pow_div hp (by decide)
    rw [hlead]
    refine ⟨⟨le_rfl, Nat.pow_lt_pow_right (by decide) (by omega)⟩, 10 ^ p, hlog ▸ hq, ?_⟩
    push_cast
    rw [← hlog, ← zpow_carry, ← zpow_leading hp]

/-- Where places are left behind the point, rounding once more at the last of them changes
nothing. -/
theorem IsRounded.divHalfEven_eq (hp : 0 < p) {num den : ℕ} (hnum : 0 < num) (hden : 0 < den)
    (h : IsRounded p (num / den) s) (hs : s.exponent < p) :
    divHalfEven (num * 10 ^ (p - 1 - s.exponent).toNat) den = s.digits := by
  have hplace : s.exponent - p + 1 = -((p - 1 - s.exponent).toNat : ℤ) := by omega
  have hnearest := h.isHalfEven hp (by positivity)
  rw [hplace, zpow_neg, zpow_natCast, div_inv_eq_mul, div_mul_eq_mul_div] at hnearest
  refine IsHalfEven.unique (divHalfEven_isHalfEven hden _) ?_
  push_cast
  exact hnearest

/-! ## The error of rounding -/

/-- The error is at most half of the last place, and that is small beside the number. -/
theorem IsRounded.error (hp : 0 < p) (hx : 0 < x) (h : IsRounded p x s) :
    2 * 10 ^ (p - 1) * |s.digits * 10 ^ (s.exponent - p + 1) - x| ≤ x := by
  obtain ⟨q, hq, hvalue⟩ := h.nearest
  have hunit : (0 : ℚ) < 10 ^ (Int.log 10 x - p + 1) := by positivity
  have hlow := (le_div_iff₀ hunit).mp (scaled_bounds hp hx).1
  rw [← hvalue, abs_mul_sub _ _ hunit]
  calc 2 * 10 ^ (p - 1) * (|x / 10 ^ (Int.log 10 x - p + 1) - q| * 10 ^ (Int.log 10 x - p + 1))
      ≤ 2 * 10 ^ (p - 1) * (1 / 2 * 10 ^ (Int.log 10 x - p + 1)) := by
        gcongr
        exact hq.1
    _ = (10 ^ (p - 1) : ℕ) * 10 ^ (Int.log 10 x - p + 1) := by
        push_cast
        ring
    _ ≤ x := hlow

/-- Where places are left behind the point, a natural number is rounded to itself. -/
theorem IsRounded.eq_of_natCast (hp : 0 < p) {n : ℕ} (hn : 0 < n) (h : IsRounded p n s)
    (hs : s.exponent < p) : (s.digits : ℚ) * 10 ^ (s.exponent - p + 1) = n := by
  obtain ⟨k, hk⟩ := Int.eq_ofNat_of_zero_le (show 0 ≤ p - 1 - s.exponent by omega)
  have hplace : s.exponent - p + 1 = -(k : ℤ) := by omega
  have hpos : (0 : ℚ) < 10 ^ k := by positivity
  have hnearest := h.isHalfEven hp (by exact_mod_cast hn)
  rw [hplace, zpow_neg, zpow_natCast, div_inv_eq_mul] at hnearest
  have hdigits : n * 10 ^ k = s.digits :=
    IsHalfEven.unique (by exact_mod_cast IsHalfEven.natCast (n * 10 ^ k)) hnearest
  rw [hplace, zpow_neg, zpow_natCast, ← hdigits]
  push_cast
  exact mul_inv_cancel_right₀ hpos.ne' _

/-- Just below a power of ten the last place is a lower one. -/
theorem IsRounded.of_near_below (hp : 0 < p) {e : ℤ} (hlt : x < 10 ^ e)
    (hnear : 2 * 10 ^ p * |10 ^ e - x| < 10 ^ e) : IsRounded p x ⟨10 ^ (p - 1), e⟩ := by
  have hunit : (0 : ℚ) < 10 ^ (e - 1 - p + 1) := by positivity
  have hscale : (1 : ℚ) ≤ 10 ^ (p - 1) := one_le_pow₀ (by norm_num)
  have hpow : (10 : ℚ) ^ p = 10 * 10 ^ (p - 1) := by rw [← pow_succ', Nat.sub_add_cancel hp]
  have hcarry : (10 : ℚ) ^ e = 10 ^ p * 10 ^ (e - 1 - p + 1) := by
    rw [← zpow_carry, sub_add_cancel]
  have herror : 2 * |((10 ^ p : ℕ) : ℚ) * 10 ^ (e - 1 - p + 1) - x| < 10 ^ (e - 1 - p + 1) := by
    refine lt_of_mul_lt_mul_left (a := (10 : ℚ) ^ p) ?_ (by positivity)
    rw [Nat.cast_pow, Nat.cast_ofNat, ← hcarry]
    linarith
  have hlog : Int.log 10 x = e - 1 := by
    refine log_eq_of_bounds ?_ (by rwa [sub_add_cancel])
    rw [zpow_leading hp]
    obtain ⟨-, habove⟩ := abs_le.mp (le_refl |((10 ^ p : ℕ) : ℚ) * 10 ^ (e - 1 - p + 1) - x|)
    push_cast at habove herror
    nlinarith
  refine ⟨⟨le_rfl, Nat.pow_lt_pow_right (by decide) (by omega)⟩, 10 ^ p,
    hlog ▸ .of_scaled hunit herror, ?_⟩
  rw [hlog]
  push_cast
  rw [← hcarry, zpow_leading hp]

/-- A number so near to one of `p` digits is rounded to it. -/
theorem IsRounded.of_near (hp : 0 < p) (hs : 10 ^ (p - 1) ≤ s.digits ∧ s.digits < 10 ^ p)
    (hnear : 2 * 10 ^ p * |s.digits * 10 ^ (s.exponent - p + 1) - x| <
      s.digits * 10 ^ (s.exponent - p + 1)) : IsRounded p x s := by
  have hlow : (10 : ℚ) ^ (p - 1) ≤ s.digits := by exact_mod_cast hs.1
  have hhigh : (s.digits : ℚ) + 1 ≤ 10 ^ p := by exact_mod_cast hs.2
  have hlead := zpow_leading hp s.exponent
  have hcarry := zpow_carry p s.exponent
  have hunit : (0 : ℚ) < 10 ^ (s.exponent - p + 1) := by positivity
  have herror : 2 * |s.digits * 10 ^ (s.exponent - p + 1) - x| < 10 ^ (s.exponent - p + 1) := by
    refine lt_of_mul_lt_mul_left (a := (10 : ℚ) ^ p) ?_ (by positivity)
    nlinarith
  obtain ⟨hbelow, habove⟩ := abs_le.mp (le_refl |s.digits * 10 ^ (s.exponent - p + 1) - x|)
  rcases le_or_gt ((10 : ℚ) ^ s.exponent) x with hle | hlt
  · have hlog : Int.log 10 x = s.exponent := by
      refine log_eq_of_bounds hle ?_
      rw [hcarry]
      nlinarith
    exact ⟨hs, s.digits, hlog ▸ .of_scaled hunit herror, by rw [hlog]⟩
  · have hdigits : s.digits = 10 ^ (p - 1) := by
      refine le_antisymm (Nat.le_of_not_lt fun hmore => ?_) hs.1
      have hmore : (10 : ℚ) ^ (p - 1) + 1 ≤ s.digits := by exact_mod_cast hmore
      nlinarith
    have hvalue : (s.digits : ℚ) * 10 ^ (s.exponent - p + 1) = 10 ^ s.exponent := by
      rw [hlead, hdigits, Nat.cast_pow, Nat.cast_ofNat]
    rw [hvalue] at hnear
    have hrounded := IsRounded.of_near_below hp hlt hnear
    rwa [← hdigits] at hrounded

/-- A number of `p` digits is rounded to itself. -/
theorem IsRounded.of_eq (hp : 0 < p) (hs : 10 ^ (p - 1) ≤ s.digits ∧ s.digits < 10 ^ p)
    (hvalue : (s.digits : ℚ) * 10 ^ (s.exponent - p + 1) = x) : IsRounded p x s := by
  have hdigits : (0 : ℚ) < s.digits := by exact_mod_cast (Nat.pow_pos (by decide)).trans_le hs.1
  refine .of_near hp hs ?_
  rw [hvalue, sub_self, abs_zero, mul_zero, ← hvalue]
  positivity

end ReversePolish.Decimal
