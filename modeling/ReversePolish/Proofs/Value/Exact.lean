import ReversePolish.Proofs.Binary64.Integer
import ReversePolish.Value.Basic

/-! # The exact values of scalars

Integers are compared as they are, and an integer beside a real as the real that it is rounded to.
Scalars compare as their exact values do, but for an integer and the real that it is rounded to. -/

namespace ReversePolish.Scalar

open Binary64

def isNaN : Scalar → Bool
  | .real x => x.isNaN
  | _ => false

/-- The number that a scalar is, unless it is NaN. -/
noncomputable def exact : Scalar → EReal
  | .int n => ((n.toInt : ℝ) : EReal)
  | .bigInt n => ((n : ℝ) : EReal)
  | .real x => value x

/-- An integer and the real that it is rounded to. -/
def RoundsTo (s t : Scalar) : Prop :=
  ∃ n x, s.integer? = some n ∧ t = .real x ∧ value (ofInt n) = value x

/-- One of the two is the real that the other, an integer, is rounded to. -/
def Blurs (s t : Scalar) : Prop := RoundsTo s t ∨ RoundsTo t s

variable {s t : Scalar} {m n : ℤ}

theorem toReal_of_integer? (h : s.integer? = some n) : s.toReal = ofInt n := by
  cases s <;> cases h <;> rfl

theorem exact_of_integer? (h : s.integer? = some n) : s.exact = ((n : ℝ) : EReal) := by
  cases s <;> cases h <;> rfl

theorem exists_real_of_integer?_eq_none (h : s.integer? = none) : ∃ x, s = .real x := by
  cases s with
  | real x => exact ⟨x, rfl⟩
  | _ => cases h

theorem integers_or_real (s t : Scalar) :
    (∃ m n, s.integer? = some m ∧ t.integer? = some n) ∨ s.integer? = none ∨ t.integer? = none := by
  cases hm : s.integer? with
  | none => exact .inr (.inl rfl)
  | some m =>
    cases hn : t.integer? with
    | none => exact .inr (.inr rfl)
    | some n => exact .inl ⟨m, n, rfl, rfl⟩

theorem not_isNaN_toReal (h : ¬ s.isNaN) : ¬ s.toReal.isNaN := by
  cases s with
  | real x => exact h
  | int n => exact not_isNaN_ofInt n.toInt
  | bigInt n => exact not_isNaN_ofInt n

/-! ## Promotion -/

theorem promote_of_integer?_eq_none (h : s.integer? = none ∨ t.integer? = none) :
    promote s t = .real s.toReal t.toReal := by
  rcases h with h | h
  · obtain ⟨x, rfl⟩ := exists_real_of_integer?_eq_none h
    rfl
  · obtain ⟨x, rfl⟩ := exists_real_of_integer?_eq_none h
    cases s <;> rfl

/-- Beside a real the order of exact values is kept by promotion. -/
theorem toReal_mono (hs : ¬ s.isNaN) (ht : ¬ t.isNaN) (hreal : s.integer? = none ∨ t.integer? = none)
    (h : s.exact ≤ t.exact) : value s.toReal ≤ value t.toReal := by
  cases hm : s.integer? with
  | some m =>
    obtain ⟨y, rfl⟩ := exists_real_of_integer?_eq_none (hreal.resolve_left (by simp [hm]))
    rw [exact_of_integer? hm] at h
    rw [toReal_of_integer? hm]
    exact value_ofInt_le ht h
  | none =>
    obtain ⟨x, rfl⟩ := exists_real_of_integer?_eq_none hm
    cases hn : t.integer? with
    | some n =>
      rw [exact_of_integer? hn] at h
      rw [toReal_of_integer? hn]
      exact le_value_ofInt hs h
    | none =>
      obtain ⟨y, rfl⟩ := exists_real_of_integer?_eq_none hn
      exact h

/-- What is lost in promotion is what an integer is rounded by. -/
theorem exact_eq_or_blurs (hreal : s.integer? = none ∨ t.integer? = none)
    (h : value s.toReal = value t.toReal) : s.exact = t.exact ∨ Blurs s t := by
  cases hm : s.integer? with
  | some m =>
    obtain ⟨y, rfl⟩ := exists_real_of_integer?_eq_none (hreal.resolve_left (by simp [hm]))
    rw [toReal_of_integer? hm] at h
    exact .inr (.inl ⟨m, y, hm, rfl, h⟩)
  | none =>
    obtain ⟨x, rfl⟩ := exists_real_of_integer?_eq_none hm
    cases hn : t.integer? with
    | some n =>
      rw [toReal_of_integer? hn] at h
      exact .inr (.inr ⟨n, x, hn, rfl, h.symm⟩)
    | none =>
      obtain ⟨y, rfl⟩ := exists_real_of_integer?_eq_none hn
      exact .inl h

theorem RoundsTo.toReal_eq (h : RoundsTo s t) : value s.toReal = value t.toReal := by
  obtain ⟨n, x, hn, rfl, hvalue⟩ := h
  rw [toReal_of_integer? hn]
  exact hvalue

theorem RoundsTo.integer?_eq_none (h : RoundsTo s t) : t.integer? = none := by
  obtain ⟨n, x, hn, rfl, hvalue⟩ := h
  rfl

/-! ## Equality -/

theorem beq_of_integer? (hs : s.integer? = some m) (ht : t.integer? = some n) :
    s == t ↔ m = n := by
  match s, t, hs, ht with
  | .int a, .int b, rfl, rfl => exact decide_eq_true_iff.trans Int64.toInt_inj.symm
  | .int _, .bigInt _, rfl, rfl => exact decide_eq_true_iff
  | .bigInt _, .int _, rfl, rfl => exact decide_eq_true_iff
  | .bigInt _, .bigInt _, rfl, rfl => exact decide_eq_true_iff

theorem beq_of_integer?_eq_none (hs : ¬ s.isNaN) (ht : ¬ t.isNaN)
    (hreal : s.integer? = none ∨ t.integer? = none) :
    s == t ↔ value s.toReal = value t.toReal := by
  have hequal : (s == t) = (promote s t).equal := rfl
  rw [hequal, promote_of_integer?_eq_none hreal]
  exact beq_iff (not_isNaN_toReal hs) (not_isNaN_toReal ht)

theorem toReal_of_beq (hs : ¬ s.isNaN) (ht : ¬ t.isNaN) (h : s == t) :
    value s.toReal = value t.toReal := by
  rcases integers_or_real s t with ⟨m, n, hm, hn⟩ | hreal
  · rw [toReal_of_integer? hm, toReal_of_integer? hn, (beq_of_integer? hm hn).mp h]
  · exact (beq_of_integer?_eq_none hs ht hreal).mp h

/-- Scalars are equal where their exact values are, and where promotion blurs these. -/
theorem beq_iff_exact (hs : ¬ s.isNaN) (ht : ¬ t.isNaN) :
    s == t ↔ s.exact = t.exact ∨ Blurs s t := by
  rcases integers_or_real s t with ⟨m, n, hm, hn⟩ | hreal
  · have hblurs : ¬ Blurs s t := by
      rintro (h | h)
      · simp [h.integer?_eq_none] at hn
      · simp [h.integer?_eq_none] at hm
    rw [beq_of_integer? hm hn, exact_of_integer? hm, exact_of_integer? hn, or_iff_left hblurs]
    norm_cast
  · rw [beq_of_integer?_eq_none hs ht hreal]
    refine ⟨exact_eq_or_blurs hreal, ?_⟩
    rintro (hexact | hblurs | hblurs)
    · exact (toReal_mono hs ht hreal hexact.le).antisymm (toReal_mono ht hs hreal.symm hexact.ge)
    · exact hblurs.toReal_eq
    · exact hblurs.toReal_eq.symm

/-- Scalars equal to a third are equal, unless that is a real and they are different integers. -/
theorem beq_iff_of_beq {u : Scalar} (hs : ¬ s.isNaN) (ht : ¬ t.isNaN) (hu : ¬ u.isNaN)
    (hst : s == t) (htu : t == u) :
    s == u ↔ ¬ ∃ m n x, s.integer? = some m ∧ u.integer? = some n ∧ m ≠ n ∧ t = .real x := by
  rcases integers_or_real s u with ⟨m, n, hm, hn⟩ | hreal
  · rw [beq_of_integer? hm hn, not_iff_not.symm, not_not]
    constructor
    · intro hne
      cases hk : t.integer? with
      | some k =>
        rw [beq_of_integer? hm hk] at hst
        rw [beq_of_integer? hk hn] at htu
        exact absurd (hst.trans htu) hne
      | none =>
        obtain ⟨x, rfl⟩ := exists_real_of_integer?_eq_none hk
        exact ⟨m, n, x, hm, hn, hne, rfl⟩
    · rintro ⟨m', n', x, hm', hn', hne, rfl⟩
      rw [hm, Option.some.injEq] at hm'
      rw [hn, Option.some.injEq] at hn'
      rwa [hm', hn']
  · refine iff_of_true ?_ ?_
    · rw [beq_of_integer?_eq_none hs hu hreal, toReal_of_beq hs ht hst, toReal_of_beq ht hu htu]
    · rintro ⟨m, n, x, hm, hn, -⟩
      simp [hm, hn] at hreal

/-! ## Order -/

theorem compare_of_integer? (hs : s.integer? = some m) (ht : t.integer? = some n) :
    (promote s t).compare = compare m n := by
  match s, t, hs, ht with
  | .int _, .int _, rfl, rfl => rfl
  | .int _, .bigInt _, rfl, rfl => rfl
  | .bigInt _, .int _, rfl, rfl => rfl
  | .bigInt _, .bigInt _, rfl, rfl => rfl

theorem compare_of_integer?_eq_none (hreal : s.integer? = none ∨ t.integer? = none) :
    (promote s t).compare = compare (orderKey s.toReal) (orderKey t.toReal) := by
  rw [promote_of_integer?_eq_none hreal]
  rfl

theorem compare_swap (s t : Scalar) : (promote t s).compare = (promote s t).compare.swap := by
  rcases integers_or_real s t with ⟨m, n, hm, hn⟩ | hreal
  · rw [compare_of_integer? hm hn, compare_of_integer? hn hm]
    exact Std.OrientedOrd.eq_swap
  · rw [compare_of_integer?_eq_none hreal, compare_of_integer?_eq_none hreal.symm]
    exact Std.OrientedOrd.eq_swap

theorem exact_eq_zero_of_toReal (h : value s.toReal = 0) : s.exact = 0 := by
  cases hn : s.integer? with
  | some n =>
    rw [toReal_of_integer? hn, value_ofInt_eq_zero_iff] at h
    rw [exact_of_integer? hn, h]
    norm_cast
  | none =>
    obtain ⟨x, rfl⟩ := exists_real_of_integer?_eq_none hn
    exact h

/-- What is not ahead in the order has no greater value, as far as promotion tells. -/
theorem exact_le_of_compare_ne_gt (hs : ¬ s.isNaN) (ht : ¬ t.isNaN)
    (h : (promote s t).compare ≠ .gt) : s.exact ≤ t.exact ∨ Blurs s t := by
  rcases integers_or_real s t with ⟨m, n, hm, hn⟩ | hreal
  · rw [compare_of_integer? hm hn, ne_eq, compare_gt_iff_gt, not_lt] at h
    rw [exact_of_integer? hm, exact_of_integer? hn]
    exact .inl (by exact_mod_cast h)
  · rw [compare_of_integer?_eq_none hreal, ne_eq, compare_gt_iff_gt, not_lt] at h
    rcases (value_le (not_isNaN_toReal hs) (not_isNaN_toReal ht) h).lt_or_eq with hlt | heq
    · refine .inl (not_lt.mp fun hgt => ?_)
      exact hlt.not_ge (toReal_mono ht hs hreal.symm hgt.le)
    · exact (exact_eq_or_blurs hreal heq).imp_left Eq.le

/-- What is ahead has no lesser value, whatever promotion does. -/
theorem exact_le_of_compare_eq_gt (hs : ¬ s.isNaN) (ht : ¬ t.isNaN)
    (h : (promote s t).compare = .gt) : t.exact ≤ s.exact := by
  rcases integers_or_real s t with ⟨m, n, hm, hn⟩ | hreal
  · rw [compare_of_integer? hm hn, compare_gt_iff_gt] at h
    rw [exact_of_integer? hm, exact_of_integer? hn]
    exact_mod_cast h.le
  · rw [compare_of_integer?_eq_none hreal, compare_gt_iff_gt] at h
    have hs' := not_isNaN_toReal hs
    have ht' := not_isNaN_toReal ht
    rcases value_lt_or_zero ht' hs' h with hlt | ⟨hzero, hzero'⟩
    · refine not_lt.mp fun hgt => ?_
      exact hlt.not_ge (toReal_mono hs ht hreal hgt.le)
    · rw [exact_eq_zero_of_toReal ((value_eq_zero_iff ht').mpr hzero),
        exact_eq_zero_of_toReal ((value_eq_zero_iff hs').mpr hzero')]

end ReversePolish.Scalar
