import ReversePolish.Proofs.Operator.Scalars
import ReversePolish.Proofs.Value.Exact

/-! # The lesser and the greater of two scalars

Of two scalars one is picked as it stands. No other choice would be better, unless one is an integer
and the other the real that it is promoted to: such two compare as equal, and the first is picked. -/

namespace ReversePolish

namespace Scalar

/-- One of the two is the real that the other, an integer, is promoted to. A zero is promoted to the
positive one, so that it does not tie with the negative. -/
def Ties (s t : Scalar) : Prop :=
  (∃ n, s.integer? = some n ∧ t = .real (Binary64.ofInt n)) ∨
    ∃ n, t.integer? = some n ∧ s = .real (Binary64.ofInt n)

/-- One of two scalars, and in the given order, unless they tie and then it is the first. -/
structure Picks (le : EReal → EReal → Prop) (s t picked : Scalar) : Prop where
  one : ∃ other, [picked, other].Perm [s, t] ∧ (¬ Ties s t → le picked.exact other.exact)
  tied : Ties s t → (promote s t).compare = .eq ∧ picked = s

variable {s t : Scalar}

theorem Ties.symm (h : Ties s t) : Ties t s := Or.symm h

/-- Nothing but the sign of a zero tells a real from the one that an integer is rounded to. -/
theorem RoundsTo.ties_or_zero (h : RoundsTo s t) (ht : ¬ t.isNaN) :
    Ties s t ∨ s.exact = 0 ∧ t.exact = 0 := by
  obtain ⟨n, x, hn, rfl, hvalue⟩ := h
  rcases (Binary64.value_eq_iff (Binary64.not_isNaN_ofInt n) ht).mp hvalue with heq | ⟨hzero, hzero'⟩
  · exact .inl (.inl ⟨n, hn, by rw [heq]⟩)
  · have hs : Binary64.value s.toReal = 0 := by
      rw [toReal_of_integer? hn]
      exact (Binary64.value_eq_zero_iff (Binary64.not_isNaN_ofInt n)).mpr hzero
    exact .inr ⟨exact_eq_zero_of_toReal hs, (Binary64.value_eq_zero_iff ht).mpr hzero'⟩

theorem Blurs.ties_or_exact_eq (h : Blurs s t) (hs : ¬ s.isNaN) (ht : ¬ t.isNaN) :
    Ties s t ∨ s.exact = t.exact := by
  rcases h with h | h
  · exact (h.ties_or_zero ht).imp_right fun ⟨hzero, hzero'⟩ => hzero.trans hzero'.symm
  · exact (h.ties_or_zero hs).imp Ties.symm fun ⟨hzero, hzero'⟩ => hzero'.trans hzero.symm

theorem compare_of_ties (h : Ties s t) : (promote s t).compare = .eq := by
  rcases h with ⟨n, hn, rfl⟩ | ⟨n, hn, rfl⟩
  · rw [compare_of_integer?_eq_none (.inr rfl), toReal_of_integer? hn]
    exact Std.ReflCmp.compare_self
  · rw [compare_of_integer?_eq_none (.inl rfl), toReal_of_integer? hn]
    exact Std.ReflCmp.compare_self

theorem exact_le_of_not_ties (hs : ¬ s.isNaN) (ht : ¬ t.isNaN)
    (h : (promote s t).compare ≠ .gt) (hties : ¬ Ties s t) : s.exact ≤ t.exact := by
  rcases exact_le_of_compare_ne_gt hs ht h with hle | hblurs
  · exact hle
  · exact ((hblurs.ties_or_exact_eq hs ht).resolve_left hties).le

theorem picks_lesser (hs : ¬ s.isNaN) (ht : ¬ t.isNaN) :
    Picks (· ≤ ·) s t (if (promote s t).compare = .gt then t else s) := by
  refine ⟨?_, fun hties => ⟨compare_of_ties hties, by simp [compare_of_ties hties]⟩⟩
  split
  · next hgt => exact ⟨s, .swap s t [], fun _ => exact_le_of_compare_eq_gt hs ht hgt⟩
  · next hngt => exact ⟨t, .refl _, exact_le_of_not_ties hs ht hngt⟩

theorem picks_greater (hs : ¬ s.isNaN) (ht : ¬ t.isNaN) :
    Picks (· ≥ ·) s t (if (promote s t).compare = .lt then t else s) := by
  have hswap := compare_swap s t
  refine ⟨?_, fun hties => ⟨compare_of_ties hties, by simp [compare_of_ties hties]⟩⟩
  split
  · next hlt =>
    rw [hlt] at hswap
    exact ⟨s, .swap s t [], fun _ => exact_le_of_compare_eq_gt ht hs hswap⟩
  · next hnlt =>
    have hngt : (promote t s).compare ≠ .gt := by
      rw [hswap]
      exact mt Ordering.swap_eq_gt.mp hnlt
    exact ⟨t, .refl _, fun hties => exact_le_of_not_ties ht hs hngt (mt Ties.symm hties)⟩

end Scalar

namespace Arithmetic

open Scalar

theorem min_eq (limits : Limits) (s t : Scalar) : min limits [.scalar s, .scalar t] =
    .ok (.scalar (if (promote s t).compare = .gt then t else s)) := by
  rw [apply_ite Value.scalar]
  rfl

theorem max_eq (limits : Limits) (s t : Scalar) : max limits [.scalar s, .scalar t] =
    .ok (.scalar (if (promote s t).compare = .lt then t else s)) := by
  rw [apply_ite Value.scalar]
  rfl

variable {catalog : Catalog} {s t : Scalar}

/-- The lesser and the greater of two scalars are picked by their exact values. Of an integer and the
real that it is promoted to, which compare as equal, the first is picked. -/
theorem extremes_up_to_rounding (hcatalog : Catalog.standard = .ok catalog) (hs : ¬ s.isNaN)
    (ht : ¬ t.isNaN) (limits : Limits) :
    (∃ min, catalog.find? "min" = some min ∧ ∃ picked, Picks (· ≤ ·) s t picked ∧
      min.apply limits [.scalar s, .scalar t] = .ok (.scalar picked)) ∧
    ∃ max, catalog.find? "max" = some max ∧ ∃ picked, Picks (· ≥ ·) s t picked ∧
      max.apply limits [.scalar s, .scalar t] = .ok (.scalar picked) := by
  have hfind := find?_operator hcatalog
  refine ⟨⟨operators[12], hfind 12 (by decide), _, picks_lesser hs ht, ?_⟩,
    operators[13], hfind 13 (by decide), _, picks_greater hs ht, ?_⟩
  · exact (apply_two List.mem_cons_self s t).trans (min_eq limits s t)
  · exact (apply_two List.mem_cons_self s t).trans (max_eq limits s t)

/-- An integer that is rounded to `2 ^ 53`, in front of that number. -/
theorem extremes_up_to_rounding_of_neighbours :
    let catalog := Catalog.standard.toOption.getD .empty
    let s : Scalar := .int 9007199254740993
    let t : Scalar := .real 9007199254740992
    (¬ s.isNaN ∧ ¬ t.isNaN) ∧ ∃ min max, catalog.find? "min" = some min ∧
      catalog.find? "max" = some max ∧
      (∃ picked, Picks (· ≤ ·) s t picked ∧
        min.apply ⟨.onOverflow, 65536⟩ [.scalar s, .scalar t] = .ok (.scalar picked)) ∧
      ∃ picked, Picks (· ≥ ·) s t picked ∧
        max.apply ⟨.onOverflow, 65536⟩ [.scalar s, .scalar t] = .ok (.scalar picked) := by
  intro catalog s t
  have hs : ¬ s.isNaN := Bool.false_ne_true
  have ht : ¬ t.isNaN := by decide +kernel
  obtain ⟨⟨min, hmin, hlesser⟩, max, hmax, hgreater⟩ :=
    extremes_up_to_rounding Catalog.standard_eq hs ht ⟨.onOverflow, 65536⟩
  exact ⟨⟨hs, ht⟩, min, max, hmin, hmax, hlesser, hgreater⟩

theorem exact_two_pow : (Scalar.real 9007199254740992).exact = ((2 ^ 53 : ℝ) : EReal) := by
  have hpositive : ¬ Binary64.isNegative 9007199254740992 := by decide +kernel
  have hfinite : Binary64.isFinite 9007199254740992 := by decide +kernel
  have hsignificand : Binary64.significand 9007199254740992 = 2 ^ 52 := by decide +kernel
  have hexponent : Binary64.exponent 9007199254740992 = 1 := by decide +kernel
  rw [exact, Binary64.value_of_not_isNegative hpositive, Binary64.magnitude_of_isFinite hfinite,
    Binary64.absValue, hsignificand, hexponent]
  norm_num

/-- Of `2 ^ 53 + 1` and the real `2 ^ 53` the greater one is returned as the lesser. -/
theorem lesser_not_picked :
    let catalog := Catalog.standard.toOption.getD .empty
    ∃ min, catalog.find? "min" = some min ∧
      min.apply ⟨.onOverflow, 65536⟩ [.int 9007199254740993, .real 9007199254740992] =
        .ok (.int 9007199254740993) ∧
      (Scalar.real 9007199254740992).exact < (Scalar.int 9007199254740993).exact := by
  refine ⟨operators[12], find?_operator Catalog.standard_eq 12 (by decide), by rfl, ?_⟩
  have hword : (9007199254740993 : Word).toInt = 2 ^ 53 + 1 := by decide +kernel
  rw [exact_two_pow, exact, hword]
  norm_cast

end Arithmetic

end ReversePolish
