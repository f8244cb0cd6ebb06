import ReversePolish.Measure.Basic
import ReversePolish.Proofs.Binary64.Scaled

/-! # Conversion by one factor and through the base unit

A vector is multiplied by the ratio of two scales, which is rounded by itself. A scalar is multiplied
by the one scale and divided by the other, and rounded in between. -/

namespace ReversePolish.Binary64

open Float.Model Float.Model.UnpackedFloat

variable {c s t x y : Float}

theorem eq_of_absValue_eq (hx : isFinite x) (hy : isFinite y) (hsign : isNegative x = isNegative y)
    (h : absValue x = absValue y) : x = y := by
  have hself := isNearest_self hx
  rw [hsign, h] at hself
  exact hself.unique (isNearest_self hy)

/-! ## Scales -/

/-- A positive factor, far from the bounds of the format. -/
structure IsScale (s : Float) : Prop where
  isFinite : isFinite s
  isNegative_eq : isNegative s = false
  least : 2 ^ (-20 : ℤ) ≤ absValue s
  greatest : absValue s ≤ 2 ^ (31 : ℤ)

namespace IsScale

theorem pos (h : IsScale s) : 0 < absValue s := (zpow_pos two_pos _).trans_le h.least

theorem ne_zero (h : IsScale s) : magnitudeBits s ≠ 0 := fun hzero =>
  h.pos.ne' (absValue_of_eq_zero hzero)

theorem isNearest_mul (h : IsScale s) (hc : Binary64.isFinite c) :
    IsNearest (isNegative c) (absValue c * absValue s) (c * s) := by
  have hproduct := Binary64.isNearest_mul hc h.isFinite
  rwa [h.isNegative_eq, Bool.bne_false] at hproduct

theorem isNearest_div (h : IsScale s) (hc : Binary64.isFinite c) :
    IsNearest (isNegative c) (absValue c / absValue s) (c / s) := by
  have hquotient := Binary64.isNearest_div hc h.isFinite h.ne_zero
  rwa [h.isNegative_eq, Bool.bne_false] at hquotient

theorem inRange_ratio (hs : IsScale s) (ht : IsScale t) : InRange (absValue s / absValue t) := by
  have hpos := ht.pos
  constructor
  · rw [le_div_iff₀ hpos]
    calc (2 : ℚ) ^ (-1022 : ℤ) * absValue t ≤ 2 ^ (-1022 : ℤ) * 2 ^ (31 : ℤ) :=
          mul_le_mul_of_nonneg_left ht.greatest (zpow_pos two_pos _).le
      _ = 2 ^ (-991 : ℤ) := by
          rw [← zpow_add₀ two_ne_zero]
          norm_num
      _ ≤ 2 ^ (-20 : ℤ) := zpow_le_zpow_right₀ one_le_two (by norm_num)
      _ ≤ absValue s := hs.least
  · rw [div_le_iff₀ hpos]
    calc absValue s ≤ 2 ^ (31 : ℤ) := hs.greatest
      _ ≤ 2 ^ (1003 : ℤ) := zpow_le_zpow_right₀ one_le_two (by norm_num)
      _ = 2 ^ (1023 : ℤ) * 2 ^ (-20 : ℤ) := by
          rw [← zpow_add₀ two_ne_zero]
          norm_num
      _ ≤ 2 ^ (1023 : ℤ) * absValue t :=
          mul_le_mul_of_nonneg_left ht.least (zpow_pos two_pos _).le

theorem inRange (h : IsScale s) : InRange (absValue s) :=
  ⟨(zpow_le_zpow_right₀ one_le_two (by norm_num)).trans h.least,
    h.greatest.trans (zpow_le_zpow_right₀ one_le_two (by norm_num))⟩

/-- The ratio of two scales, rounded. -/
theorem isNearest_ratio (hs : IsScale s) (ht : IsScale t) :
    IsNearest false (absValue s / absValue t) (s / t) :=
  hs.isNegative_eq ▸ ht.isNearest_div hs.isFinite

theorem isFinite_ratio (hs : IsScale s) (ht : IsScale t) : Binary64.isFinite (s / t) :=
  (hs.isNearest_ratio ht).isFinite_of_inRange (hs.inRange_ratio ht)

theorem isNearest_mul_ratio (hs : IsScale s) (ht : IsScale t) (hc : Binary64.isFinite c) :
    IsNearest (isNegative c) (absValue c * absValue (s / t)) (c * (s / t)) := by
  have hproduct := Binary64.isNearest_mul hc (hs.isFinite_ratio ht)
  rwa [(hs.isNearest_ratio ht).isNegative, Bool.bne_false] at hproduct

/-- An infinity stays what it is over a scale. -/
theorem infinity_over (h : IsScale s) (hx : magnitudeBits x = infinityBits) : x / s = x := by
  have hparts : UnpackedFloat.div .binary64 x.toModel.unpack s.toModel.unpack =
      x.toModel.unpack := by
    obtain ⟨hpos, hs⟩ := (unpacks s).eq_finite h.isFinite h.ne_zero
    rw [hs, (unpacks x).eq_infinity hx, sign_eq s, h.isNegative_eq, sign_eq]
    cases isNegative x <;> rfl
  rw [div_eq, hparts, pack_unpack_toModel]

theorem zero_over (h : IsScale s) : 0 / s = 0 := by
  have hquotient := h.isNearest_div (c := 0) (by decide)
  rw [absValue_of_eq_zero (by decide), zero_div] at hquotient
  exact hquotient.unique (isNearest_zero _)

theorem over_one (h : IsScale s) (hone : absValue s = 1) (hx : ¬ x.isNaN) : x / s = x := by
  by_cases hfinite : Binary64.isFinite x
  · have hquotient := h.isNearest_div hfinite
    rw [hone, div_one] at hquotient
    exact hquotient.unique (isNearest_self hfinite)
  · exact h.infinity_over (magnitudeBits_of_not_isFinite hfinite hx)

theorem ratio_self (h : IsScale s) : s / s = 1 := by
  have hratio := h.isNearest_ratio h
  have hone := isNearest_self isFinite_one
  rw [div_self h.pos.ne'] at hratio
  rw [absValue_one, isNegative_one] at hone
  exact hratio.unique hone

end IsScale

theorem mul_one_of_isFinite (hc : isFinite c) : c * 1 = c := by
  have hproduct := isNearest_mul hc isFinite_one
  rw [absValue_one, mul_one, isNegative_one, Bool.bne_false] at hproduct
  exact hproduct.unique (isNearest_self hc)

/-! ## The two ways -/

/-- The component `p` and the scalar `q` that a number `c` converts to, from a unit of scale `s` to
one of scale `t`. -/
structure Converted (c s t p q : Float) : Prop where
  component : ∃ f, IsNearest false (absValue s / absValue t) f ∧
    IsNearest (isNegative c) (absValue c * absValue f) p
  scalar : ∃ x, IsNearest (isNegative c) (absValue c * absValue s) x ∧
    (¬ isFinite x → q = x) ∧ (magnitudeBits x = 0 → q = 0) ∧
    (isFinite x → magnitudeBits x ≠ 0 → IsNearest (isNegative c) (absValue x / absValue t) q)
  of_zero (hc : magnitudeBits c = 0) : p = c ∧ q = 0
  of_base (ht : absValue t = 1) : q = p + 0
  of_two_pow (j : ℤ) (ht : absValue t = 2 ^ j) (hbase : InRange (absValue c * absValue s))
    (hresult : InRange (absValue c * absValue s / absValue t)) : p = q
  near (hbase : InRange (absValue c * absValue s))
    (hresult : InRange (absValue c * absValue s / absValue t)) :
    2 ^ 51 * |absValue p - absValue c * absValue s / absValue t| ≤
        absValue c * absValue s / absValue t ∧
      2 ^ 51 * |absValue q - absValue c * absValue s / absValue t| ≤
        absValue c * absValue s / absValue t

section Converted

variable (hc : isFinite c) (hs : IsScale s) (ht : IsScale t)

include hc hs ht

theorem scalar_of_not_isFinite (h : ¬ isFinite (c * s)) : (c * s + 0 - 0) / t = c * s := by
  have hproduct := hs.isNearest_mul hc
  have hbits := magnitudeBits_of_not_isFinite h hproduct.not_isNaN
  rw [sub_zero, add_zero_of_ne (by rw [hbits]; decide), ht.infinity_over hbits]

omit hc hs in
theorem scalar_of_eq_zero (h : magnitudeBits (c * s) = 0) : (c * s + 0 - 0) / t = 0 := by
  rw [sub_zero, add_zero_of_eq h, ht.zero_over]

theorem isNearest_scalar (h : isFinite (c * s)) (hne : magnitudeBits (c * s) ≠ 0) :
    IsNearest (isNegative c) (absValue (c * s) / absValue t) ((c * s + 0 - 0) / t) := by
  rw [sub_zero, add_zero_of_ne hne, ← (hs.isNearest_mul hc).isNegative]
  exact ht.isNearest_div h

theorem converted_of_base (hone : absValue t = 1) :
    (c * s + 0 - 0) / t = c * (s / t) + 0 := by
  have hproduct := (hs.isNearest_mul hc).not_isNaN
  have hratio : s / t = s := by
    refine ht.over_one hone ?_
    rw [isNaN_of_isFinite hs.isFinite]
    exact Bool.false_ne_true
  rw [hratio, sub_zero]
  by_cases hzero : magnitudeBits (c * s) = 0
  · rw [add_zero_of_eq hzero, ht.zero_over]
  · rw [add_zero_of_ne hzero, ht.over_one hone hproduct]

theorem isNearest_scalar_of_inRange (hbase : InRange (absValue c * absValue s)) :
    IsNearest (isNegative c) (absValue (c * s) / absValue t) ((c * s + 0 - 0) / t) := by
  have hproduct := hs.isNearest_mul hc
  refine isNearest_scalar hc hs ht (hproduct.isFinite_of_inRange hbase) fun hzero => ?_
  exact (hproduct.inRange hbase).pos.ne' (absValue_of_eq_zero hzero)

section InRange

variable (hbase : InRange (absValue c * absValue s))
  (hresult : InRange (absValue c * absValue s / absValue t))

include hbase hresult

/-- A power of two moves through both roundings. -/
theorem converted_of_two_pow {j : ℤ} (hj : absValue t = 2 ^ j) :
    c * (s / t) = (c * s + 0 - 0) / t := by
  have hinverse (v : ℚ) : v / absValue t = v * 2 ^ (-j) := by rw [hj, zpow_neg, div_eq_mul_inv]
  have hproduct := hs.isNearest_mul hc
  have hfinite := hproduct.isFinite_of_inRange hbase
  have hfactor : absValue (s / t) = absValue s / absValue t := by
    have hself := isNearest_self hs.isFinite
    have hratio := hs.isNearest_ratio ht
    have hrange := hs.inRange_ratio ht
    rw [hs.isNegative_eq] at hself
    rw [hinverse] at hratio hrange ⊢
    exact hself.absValue_scale hratio hs.inRange hrange
  have hcomponent := hs.isNearest_mul_ratio ht hc
  have hscalar := isNearest_scalar_of_inRange hc hs ht hbase
  rw [hfactor, ← mul_div_assoc] at hcomponent
  have hp := hcomponent.inRange hresult
  have hp' : absValue (c * (s / t)) = absValue (c * s) / absValue t := by
    rw [hinverse] at hcomponent hresult ⊢
    exact hproduct.absValue_scale hcomponent hbase hresult
  have hq' : absValue ((c * s + 0 - 0) / t) = absValue (c * s) / absValue t := by
    have hself := isNearest_self hfinite
    rw [hproduct.isNegative] at hself
    rw [hp'] at hp
    rw [hinverse] at hscalar hp ⊢
    exact hself.absValue_scale hscalar (hproduct.inRange hbase) hp
  refine eq_of_absValue_eq (hcomponent.isFinite_of_inRange hresult)
    (hscalar.isFinite_of_inRange ?_) (hcomponent.isNegative.trans hscalar.isNegative.symm)
    (hp'.trans hq'.symm)
  exact hp' ▸ hp

theorem converted_near :
    2 ^ 51 * |absValue (c * (s / t)) - absValue c * absValue s / absValue t| ≤
        absValue c * absValue s / absValue t ∧
      2 ^ 51 * |absValue ((c * s + 0 - 0) / t) - absValue c * absValue s / absValue t| ≤
        absValue c * absValue s / absValue t := by
  constructor
  · refine (hs.isNearest_mul_ratio ht hc).near hresult ?_
    have herror := (hs.isNearest_ratio ht).error_of_inRange (hs.inRange_ratio ht)
    rw [mul_div_assoc, ← mul_sub, abs_mul, abs_of_nonneg (absValue_nonneg c), mul_left_comm]
    exact mul_le_mul_of_nonneg_left herror (absValue_nonneg c)
  · refine (isNearest_scalar_of_inRange hc hs ht hbase).near hresult ?_
    have herror := (hs.isNearest_mul hc).error_of_inRange hbase
    rw [← sub_div, abs_div, abs_of_pos ht.pos, ← mul_div_assoc]
    exact div_le_div_of_nonneg_right herror ht.pos.le

end InRange

theorem converted_of_eq_zero (hzero : magnitudeBits c = 0) :
    c * (s / t) = c ∧ (c * s + 0 - 0) / t = 0 := by
  have hcomponent := hs.isNearest_mul_ratio ht hc
  have hproduct := hs.isNearest_mul hc
  rw [absValue_of_eq_zero hzero, zero_mul] at hcomponent hproduct
  constructor
  · rw [hcomponent.unique (isNearest_zero _), ← eq_zero_of_magnitudeBits hzero]
  · refine scalar_of_eq_zero ht ?_
    rw [hproduct.unique (isNearest_zero _), magnitudeBits_zero]

theorem converted : Converted c s t (c * (s / t)) ((c * s + 0 - 0) / t) where
  component := ⟨s / t, hs.isNearest_ratio ht, hs.isNearest_mul_ratio ht hc⟩
  scalar := ⟨c * s, hs.isNearest_mul hc, scalar_of_not_isFinite hc hs ht,
    scalar_of_eq_zero ht, isNearest_scalar hc hs ht⟩
  of_zero := converted_of_eq_zero hc hs ht
  of_base := converted_of_base hc hs ht
  of_two_pow _ hj hbase hresult := converted_of_two_pow hc hs ht hbase hresult hj
  near := converted_near hc hs ht

end Converted

end ReversePolish.Binary64
