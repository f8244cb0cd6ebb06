import ReversePolish.Proofs.Binary64.Rounded

/-! # Products and quotients

Those of finite numbers are the numbers nearest to the exact ones. -/

namespace ReversePolish.Binary64

open Float.Model Float.Model.UnpackedFloat

/-! ## Nearest numbers -/

/-- The number of that sign that is nearest to the absolute value. -/
def IsNearest (negative : Bool) (v : ℚ) (x : Float) : Prop :=
  ∃ num den : ℕ, 0 < den ∧ v = num / den ∧ x = nearest negative num den

variable {x y z : Float}

theorem IsNearest.unique {negative : Bool} {v : ℚ} (h : IsNearest negative v x)
    (h' : IsNearest negative v y) : x = y := by
  obtain ⟨num, den, hden, hv, rfl⟩ := h
  obtain ⟨num', den', hden', hv', rfl⟩ := h'
  exact nearest_congr hden hden' (hv.symm.trans hv') negative

theorem isNearest_zero (negative : Bool) : IsNearest negative 0 (zero negative) :=
  ⟨0, 1, one_pos, by simp, by simp [nearest]⟩

theorem absValue_of_eq_zero (h : magnitudeBits x = 0) : absValue x = 0 := by
  have hsignificand : significand x = 0 := by rw [significand_eq, h, if_pos (by decide)]
  rw [absValue, hsignificand, Nat.cast_zero, zero_mul]

theorem isNearest_roundWithAccuracy (negative : Bool) {m : ℕ} {e : ℤ} {acc : Accuracy} {v : ℚ}
    (hv : Extends (.ofMantissaAndAccuracy m acc) v) (he : e ≤ max ((m.log2 : ℤ) + e - 52) (-1074))
    (hpos : 0 < v) : IsNearest negative (v * 2 ^ e)
      (.ofModel (.pack (roundWithAccuracy .binary64 (signOf negative) m e acc))) := by
  obtain ⟨num, den, hnum, hden, hvalue⟩ : ∃ num den : ℕ, 0 < num ∧ 0 < den ∧
      (num / den : ℚ) = v * 2 ^ e := by
    have hpos : 0 < v * 2 ^ e := mul_pos hpos (zpow_pos two_pos e)
    obtain ⟨num, hnum⟩ := Int.eq_ofNat_of_zero_le (Rat.num_nonneg.mpr hpos.le)
    have hquotient := Rat.num_div_den (v * 2 ^ e)
    rw [hnum, Int.cast_natCast] at hquotient
    exact ⟨num, _, num_pos_of_quotient_pos (hquotient ▸ hpos), Rat.den_pos _, hquotient⟩
  exact ⟨num, den, hden, hvalue.symm, pack_roundWithAccuracy negative hv he hnum hden hvalue⟩

/-! ## Products -/

theorem mul_eq (x y : Float) : x * y =
    .ofModel (.pack (UnpackedFloat.mul .binary64 x.toModel.unpack y.toModel.unpack)) := rfl

/-- The product of two significands is long enough, as only the least place has shorter ones. -/
theorem isNearest_product {m n : ℕ} {q r : ℤ} (h : IsCanonical m q) (h' : IsCanonical n r)
    (hpos : 0 < m) (hpos' : 0 < n) (negative : Bool) :
    IsNearest negative (m * 2 ^ q * (n * 2 ^ r))
      (.ofModel (.pack
        (roundWithAccuracy .binary64 (signOf negative) (m * n) (q + r) .exact))) := by
  have hproduct : 0 < m * n := Nat.mul_pos hpos hpos'
  have hlong : q + r ≤ max (((m * n).log2 : ℤ) + (q + r) - 52) (-1074) := by
    have hlog (hle : 2 ^ 52 ≤ m * n) : 52 ≤ (m * n).log2 := (Nat.le_log2 hproduct.ne').mpr hle
    have hleast := h.least
    have hleast' := h'.least
    by_cases hq : -1074 < q
    · have := hlog ((h.full hq).trans (Nat.le_mul_of_pos_right m hpos'))
      omega
    · by_cases hr : -1074 < r
      · have := hlog ((h'.full hr).trans (Nat.le_mul_of_pos_left n hpos))
        omega
      · omega
  have hvalue : (m * 2 ^ q * (n * 2 ^ r) : ℚ) = (m * n : ℕ) * 2 ^ (q + r) := by
    rw [zpow_add₀ two_ne_zero, Nat.cast_mul]
    ring
  rw [hvalue]
  exact isNearest_roundWithAccuracy negative (extends_exact _) hlong (by exact_mod_cast hproduct)

theorem Unpacks.isNearest_mul {u v : UnpackedFloat} (hu : Unpacks x u) (hv : Unpacks y v)
    (hx : isFinite x) (hy : isFinite y) :
    IsNearest (isNegative x != isNegative y) (absValue x * absValue y)
      (.ofModel (.pack (UnpackedFloat.mul .binary64 u v))) := by
  have hbits : magnitudeBits x < infinityBits := of_decide_eq_true hx
  have hbits' : magnitudeBits y < infinityBits := of_decide_eq_true hy
  cases hu with
  | nan h => omega
  | infinity h => omega
  | zero h =>
    rw [absValue_of_eq_zero h, zero_mul, sign_eq]
    cases hv with
    | nan h' => omega
    | infinity h' => omega
    | zero h' =>
      rw [UnpackedFloat.mul, sign_eq, signOf_mul, pack_zero]
      exact isNearest_zero _
    | finite h' hpos' =>
      rw [UnpackedFloat.mul, sign_eq, signOf_mul, pack_zero]
      exact isNearest_zero _
  | finite h hpos =>
    rw [sign_eq]
    cases hv with
    | nan h' => omega
    | infinity h' => omega
    | zero h' =>
      rw [absValue_of_eq_zero h', mul_zero, UnpackedFloat.mul, sign_eq, signOf_mul, pack_zero]
      exact isNearest_zero _
    | finite h' hpos' =>
      rw [UnpackedFloat.mul, sign_eq, signOf_mul]
      exact isNearest_product (isCanonical h) (isCanonical h') hpos hpos' _

/-- A product of finite numbers is the number nearest to the exact product. -/
theorem isNearest_mul (hx : isFinite x) (hy : isFinite y) :
    IsNearest (isNegative x != isNegative y) (absValue x * absValue y) (x * y) :=
  (unpacks x).isNearest_mul (unpacks y) hx hy

/-! ## Quotients -/

theorem isNearest_quotient {m n : ℕ} {q r : ℤ} (hpos : 0 < m) (hpos' : 0 < n) (negative : Bool) :
    let core := divCore .binary64 m q n r
    IsNearest negative (m * 2 ^ q / (n * 2 ^ r))
      (.ofModel (.pack
        (roundWithAccuracy .binary64 (signOf negative) core.1 core.2.1 core.2.2))) := by
  obtain ⟨k, t, ht, hk, hcore⟩ := divCore_eq m n q r
  have hlong : t ≤ max (((m * 2 ^ k / n).log2 : ℤ) + t - 52) (-1074) := by
    by_cases hmore : -1074 < t
    · have hbits : n.log2 + 53 ≤ m.log2 + k := by omega
      have hle : 2 ^ 52 ≤ m * 2 ^ k / n := by
        rw [Nat.le_div_iff_mul_le hpos']
        calc 2 ^ 52 * n ≤ 2 ^ 52 * 2 ^ (n.log2 + 1) :=
              Nat.mul_le_mul_left _ Nat.lt_log2_self.le
          _ = 2 ^ (n.log2 + 53) := by rw [← pow_add]; congr 1; omega
          _ ≤ 2 ^ (m.log2 + k) := Nat.pow_le_pow_right two_pos hbits
          _ ≤ m * 2 ^ k := by
            rw [pow_add]
            exact Nat.mul_le_mul_right _ (Nat.log2_self_le hpos.ne')
      have hlog := (Nat.le_log2 (by omega)).mpr hle
      omega
    · omega
  have hvalue : (m * 2 ^ q / (n * 2 ^ r) : ℚ) = (m * 2 ^ k : ℕ) / n * 2 ^ t := by
    have hq : q = r + t + k := by omega
    have hn : (n : ℚ) ≠ 0 := by exact_mod_cast hpos'.ne'
    have hr : (2 : ℚ) ^ r ≠ 0 := zpow_ne_zero r two_ne_zero
    rw [hq, zpow_add₀ two_ne_zero, zpow_add₀ two_ne_zero, zpow_natCast, Nat.cast_mul, Nat.cast_pow,
      Nat.cast_ofNat]
    field_simp
  rw [hcore, hvalue]
  exact isNearest_roundWithAccuracy negative (extends_quotient _ hpos') hlong (by positivity)

theorem Unpacks.isNearest_div {u v : UnpackedFloat} (hu : Unpacks x u) (hv : Unpacks y v)
    (hx : isFinite x) (hy : isFinite y) (hne : magnitudeBits y ≠ 0) :
    IsNearest (isNegative x != isNegative y) (absValue x / absValue y)
      (.ofModel (.pack (UnpackedFloat.div .binary64 u v))) := by
  have hbits : magnitudeBits x < infinityBits := of_decide_eq_true hx
  have hbits' : magnitudeBits y < infinityBits := of_decide_eq_true hy
  cases hv with
  | nan h' => omega
  | infinity h' => omega
  | zero h' => exact absurd h' hne
  | finite h' hpos' =>
    cases hu with
    | nan h => omega
    | infinity h => omega
    | zero h =>
      rw [absValue_of_eq_zero h, zero_div, UnpackedFloat.div, sign_eq, sign_eq, signOf_div,
        pack_zero]
      exact isNearest_zero _
    | finite h hpos =>
      rw [UnpackedFloat.div, sign_eq, sign_eq, signOf_div]
      exact isNearest_quotient hpos hpos' _

/-- A quotient of finite numbers is the number nearest to the exact quotient. -/
theorem isNearest_div (hx : isFinite x) (hy : isFinite y) (hne : magnitudeBits y ≠ 0) :
    IsNearest (isNegative x != isNegative y) (absValue x / absValue y) (x / y) :=
  (unpacks x).isNearest_div (unpacks y) hx hy hne

end ReversePolish.Binary64
