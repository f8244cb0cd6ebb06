import Mathlib
import ReversePolish.Rounding

/-! # The nearest natural number

A quotient is rounded to the natural number nearest to it, and of two to the even one. -/

namespace ReversePolish

/-! ## Nearest numbers -/

/-- The natural number is nearest, and even where there are two. -/
def IsHalfEven (x : ℚ) (q : ℕ) : Prop := |x - q| ≤ 1 / 2 ∧ (|x - q| = 1 / 2 → Even q)

theorem IsHalfEven.of_lt {x : ℚ} {q : ℕ} (h : |x - q| < 1 / 2) : IsHalfEven x q :=
  ⟨h.le, fun heq => absurd heq h.ne⟩

theorem IsHalfEven.le_of_le {x : ℚ} {q n : ℕ} (h : IsHalfEven x q) (hn : n ≤ x) : n ≤ q := by
  have herror := abs_le.mp h.1
  have hlt : (n : ℚ) < q + 1 := by linarith
  exact Nat.lt_add_one_iff.mp (by exact_mod_cast hlt)

theorem IsHalfEven.le_of_ge {x : ℚ} {q n : ℕ} (h : IsHalfEven x q) (hn : x ≤ n) : q ≤ n := by
  have herror := abs_le.mp h.1
  have hlt : (q : ℚ) < n + 1 := by linarith
  exact Nat.lt_add_one_iff.mp (by exact_mod_cast hlt)

theorem IsHalfEven.unique {x : ℚ} {q r : ℕ} (hq : IsHalfEven x q) (hr : IsHalfEven x r) :
    q = r := by
  wlog hlt : q < r generalizing q r
  · rcases Nat.lt_or_eq_of_le (Nat.le_of_not_lt hlt) with hlt | rfl
    · exact (this hr hq hlt).symm
    · rfl
  have hq' := abs_le.mp hq.1
  have hr' := abs_le.mp hr.1
  -- Both are a half away, and then they are neighbours of different parity.
  have hnext : r = q + 1 := by
    have hle : (r : ℚ) ≤ q + 1 := by linarith
    have hle : r ≤ q + 1 := by exact_mod_cast hle
    omega
  have hcast : (r : ℚ) = q + 1 := by exact_mod_cast hnext
  have hhalf : x - q = 1 / 2 := by linarith
  have hhalf' : x - r = -(1 / 2) := by linarith
  have heven := hq.2 (by rw [hhalf]; norm_num)
  have heven' := hr.2 (by rw [hhalf']; norm_num)
  rw [hnext] at heven'
  exact absurd heven (Nat.even_add_one.mp heven')

theorem IsHalfEven.natCast (n : ℕ) : IsHalfEven n n :=
  .of_lt (by rw [sub_self, abs_zero]; norm_num)

theorem IsHalfEven.closest {x : ℚ} {q : ℕ} (h : IsHalfEven x q) (n : ℕ) : |x - q| ≤ |x - n| := by
  by_cases hn : n = q
  · rw [hn]
  have hapart : (1 : ℤ) ≤ |(n : ℤ) - q| := Int.one_le_abs (by omega)
  have hapart : (1 : ℚ) ≤ |(n : ℚ) - q| := by exact_mod_cast hapart
  have htriangle : |(n : ℚ) - q| ≤ |(n : ℚ) - x| + |x - q| := abs_sub_le _ _ _
  rw [abs_sub_comm (n : ℚ) x] at htriangle
  linarith [h.1]

/-- A half above an odd number is rounded up. -/
theorem IsHalfEven.le_iff_of_odd {x : ℚ} {q n : ℕ} (h : IsHalfEven x q) (hn : Odd n) :
    q ≤ n ↔ x < n + 1 / 2 := by
  have herror := abs_le.mp h.1
  constructor
  · intro hle
    have hle' : (q : ℚ) ≤ n := by exact_mod_cast hle
    refine lt_of_le_of_ne (by linarith) fun htie => ?_
    have hq : (n : ℚ) ≤ q := by linarith
    obtain rfl : q = n := hle.antisymm (by exact_mod_cast hq)
    have heven : Even q := h.2 (by rw [htie, add_sub_cancel_left]; norm_num)
    exact Nat.not_even_iff_odd.mpr hn heven
  · intro hlt
    have hlt : (q : ℚ) < n + 1 := by linarith
    exact Nat.lt_add_one_iff.mp (by exact_mod_cast hlt)

/-- The nearest number is nearest in coarser units too, if it is a number of those. The error has
become so small that there is no tie. -/
theorem IsHalfEven.div_pow {x : ℚ} {q k : ℕ} (h : IsHalfEven x (q * 10 ^ k)) :
    IsHalfEven (x / 10 ^ k) q := by
  rcases Nat.eq_zero_or_pos k with rfl | hk
  · simpa using h
  · have hpow : (10 : ℚ) ≤ 10 ^ k := by exact_mod_cast Nat.le_self_pow hk.ne' 10
    have hpos : (0 : ℚ) < 10 ^ k := by positivity
    have herror : x / 10 ^ k - q = (x - (q * 10 ^ k : ℕ)) / 10 ^ k := by
      push_cast
      rw [sub_div, mul_div_cancel_right₀ _ hpos.ne']
    refine .of_lt ?_
    calc |x / 10 ^ k - q| = |x - (q * 10 ^ k : ℕ)| / 10 ^ k := by
          rw [herror, abs_div, abs_of_pos hpos]
      _ ≤ 1 / 2 / 10 := div_le_div₀ (by norm_num) h.1 (by norm_num) hpow
      _ < 1 / 2 := by norm_num

/-! ## Rounded quotients -/

theorem divHalfEven_bounds (num den : ℕ) :
    num / den ≤ divHalfEven num den ∧ divHalfEven num den ≤ num / den + 1 := by
  unfold divHalfEven
  dsimp only
  split
  · omega
  · split
    · omega
    · omega

/-- The error is at most a half. -/
theorem divHalfEven_error {den : ℕ} (hden : 0 < den) (num : ℕ) :
    2 * (divHalfEven num den * den) ≤ 2 * num + den ∧
      2 * num ≤ 2 * (divHalfEven num den * den) + den := by
  have hdivision := Nat.div_add_mod num den
  have hmul : num / den * den = den * (num / den) := Nat.mul_comm _ _
  have hlt := Nat.mod_lt num hden
  unfold divHalfEven
  dsimp only
  split
  · omega
  · split
    · rw [Nat.add_mul]
      omega
    · rcases Nat.mod_two_eq_zero_or_one (num / den) with h | h
      · rw [h, Nat.add_zero]
        omega
      · rw [h, Nat.add_mul]
        omega

theorem divHalfEven_one (num : ℕ) : divHalfEven num 1 = num := by
  simp [divHalfEven, Nat.mod_one]

/-- An error of a half leaves an even number. -/
theorem divHalfEven_tie {num den : ℕ} (hden : 0 < den)
    (h : 2 * num = 2 * (divHalfEven num den * den) + den ∨
      2 * (divHalfEven num den * den) = 2 * num + den) : Even (divHalfEven num den) := by
  have hdivision := Nat.div_add_mod num den
  have hmul : num / den * den = den * (num / den) := Nat.mul_comm _ _
  have hlt := Nat.mod_lt num hden
  rw [Nat.even_iff]
  revert h
  unfold divHalfEven
  dsimp only
  split
  · omega
  · split
    · rw [Nat.add_mul]
      omega
    · omega

theorem divHalfEven_isHalfEven {den : ℕ} (hden : 0 < den) (num : ℕ) :
    IsHalfEven (num / den : ℚ) (divHalfEven num den) := by
  obtain ⟨habove, hbelow⟩ := divHalfEven_error hden num
  have htie := @divHalfEven_tie num den hden
  generalize divHalfEven num den = q at *
  have hden : (0 : ℚ) < den := by exact_mod_cast hden
  have habove : (2 : ℚ) * (q * den) ≤ 2 * num + den := by exact_mod_cast habove
  have hbelow : (2 : ℚ) * num ≤ 2 * (q * den) + den := by exact_mod_cast hbelow
  have herror : (num / den : ℚ) - q = (num - q * den) / den := by field_simp
  constructor
  · rw [herror, abs_le, le_div_iff₀ hden, div_le_iff₀ hden]
    constructor <;> linarith
  · rw [herror, abs_eq (by norm_num), div_eq_iff hden.ne', div_eq_iff hden.ne']
    rintro (h | h)
    · have h : (2 : ℚ) * num = 2 * (q * den) + den := by linarith
      exact htie (.inl (by exact_mod_cast h))
    · have h : (2 : ℚ) * (q * den) = 2 * num + den := by linarith
      exact htie (.inr (by exact_mod_cast h))

/-! ## Scaled quotients -/

theorem abs_mul_sub (n x : ℚ) {unit : ℚ} (hunit : 0 < unit) :
    |n * unit - x| = |x / unit - n| * unit := by
  rw [← abs_of_pos hunit, ← abs_mul, abs_of_pos hunit, sub_mul, div_mul_cancel₀ _ hunit.ne',
    abs_sub_comm]

theorem IsHalfEven.of_scaled {x unit : ℚ} (hunit : 0 < unit) {q : ℕ}
    (h : 2 * |q * unit - x| < unit) : IsHalfEven (x / unit) q := by
  rw [abs_mul_sub _ _ hunit] at h
  refine .of_lt (lt_of_mul_lt_mul_right ?_ hunit.le)
  linarith

/-- A quotient in units of a power of the base, which may be a fraction. -/
theorem scaled_quotient (base num den : ℕ) (place : ℤ) :
    ((num * base ^ (-place).toNat : ℕ) / (den * base ^ place.toNat : ℕ) : ℚ) =
      num / den / base ^ place := by
  obtain ⟨n, rfl | rfl⟩ := place.eq_nat_or_neg
  · simp [div_div]
  · simp [div_mul_eq_mul_div]

end ReversePolish
