import Mathlib.Tactic.Linarith
import ReversePolish.Rounding
import ReversePolish.Value.Word

/-! # Machine integers stand for integers

Where an operation on machine integers has a result, that is the exact one. -/

namespace ReversePolish.Word

theorem ofInt?_eq_some {n : Int} {w : Word} : ofInt? n = some w ↔ w.toInt = n := by
  simp only [ofInt?]
  constructor
  · intro h
    split at h
    · next hrange =>
        obtain rfl := Option.some.inj h
        exact Int64.toInt_ofInt_of_le hrange.1 (Int.lt_add_one_of_le hrange.2)
    · cases h
  · rintro rfl
    rw [if_pos ⟨w.minValue_le_toInt, w.toInt_le⟩, Int64.ofInt_toInt]

@[simp]
theorem ofInt?_toInt (w : Word) : ofInt? w.toInt = some w := ofInt?_eq_some.mpr rfl

theorem toInt_of_checked {exact : Int → Int → Int} {a b w : Word}
    (h : checked exact a b = some w) : w.toInt = exact a.toInt b.toInt :=
  ofInt?_eq_some.mp h

/-! ## Division -/

theorem divisionOverflows_eq_false {a b : Word} :
    divisionOverflows a b = false ↔ b ≠ 0 ∧ (a = Int64.minValue → b ≠ -1) := by
  simp [divisionOverflows]

theorem toInt_quotient {a b q : Word} (h : quotient? a b = some q) :
    q.toInt = a.toInt.tdiv b.toInt := by
  unfold quotient? at h
  split at h
  · cases h
  · next hdefined =>
      obtain rfl := Option.some.inj h
      have hdefined := divisionOverflows_eq_false.mp (Bool.eq_false_iff.mpr hdefined)
      by_cases ha : a = Int64.minValue
      · exact Int64.toInt_div_of_ne_right a b (hdefined.2 ha)
      · exact Int64.toInt_div_of_ne_left a b ha

theorem toInt_remainder {a b r : Word} (h : remainder? a b = some r) :
    r.toInt = a.toInt.tmod b.toInt := by
  unfold remainder? at h
  split at h
  · cases h
  · obtain rfl := Option.some.inj h
    exact Int64.toInt_mod a b

/-- A quotient next to a remainder is well inside the range, as the divisor is then no unit. -/
theorem quotient_inside {a b : Int} (ha : -2 ^ 63 ≤ a) (ha' : a < 2 ^ 63) (hr : a.tmod b ≠ 0) :
    -2 ^ 62 ≤ a.tdiv b ∧ a.tdiv b ≤ 2 ^ 62 := by
  have hb : 2 ≤ b.natAbs ∨ b.natAbs = 0 := by
    by_contra hunit
    have hone : b.natAbs = 1 := by omega
    have hdvd : b ∣ a := Int.natAbs_dvd.mp (by simp [hone])
    exact hr (Int.tmod_eq_zero_of_dvd hdvd)
  have hq : (a.tdiv b).natAbs ≤ 2 ^ 62 := by
    rw [Int.natAbs_tdiv]
    rcases hb with hb | hb
    · calc a.natAbs / b.natAbs ≤ a.natAbs / 2 := Nat.div_le_div_left hb (by decide)
        _ ≤ 2 ^ 62 := by omega
    · rw [hb]
      exact (Nat.div_zero _).trans_le (Nat.zero_le _)
  omega

theorem toInt_sub_of_inside {a b : Word} (h : -2 ^ 63 ≤ a.toInt - b.toInt)
    (h' : a.toInt - b.toInt < 2 ^ 63) : (a - b).toInt = a.toInt - b.toInt := by
  rw [Int64.toInt_sub]
  exact Int.bmod_eq_of_le (by omega) (by omega)

theorem toInt_add_of_inside {a b : Word} (h : -2 ^ 63 ≤ a.toInt + b.toInt)
    (h' : a.toInt + b.toInt < 2 ^ 63) : (a + b).toInt = a.toInt + b.toInt := by
  rw [Int64.toInt_add]
  exact Int.bmod_eq_of_le (by omega) (by omega)

theorem sign_ne_iff {r b : Int} (hr : r ≠ 0) (hb : b ≠ 0) :
    r.sign ≠ b.sign ↔ ¬ (r < 0 ↔ b < 0) := by
  rcases Int.lt_or_gt_of_ne hr with hr | hr
  · rcases Int.lt_or_gt_of_ne hb with hb | hb
    · simp [Int.sign_eq_neg_one_of_neg, hr, hb]
    · simp [Int.sign_eq_neg_one_of_neg, Int.sign_eq_one_of_pos, hr, hb, hb.le]
  · rcases Int.lt_or_gt_of_ne hb with hb | hb
    · simp [Int.sign_eq_neg_one_of_neg, Int.sign_eq_one_of_pos, hr, hb, hr.le]
    · simp [Int.sign_eq_one_of_pos, hr, hb, not_lt_of_gt]

/-- The correction does not leave the range. -/
theorem toInt_flooredDivision {a b q r : Word} (h : flooredDivision? a b = some (q, r)) :
    (q.toInt, r.toInt) = flooredDivision a.toInt b.toInt := by
  simp only [flooredDivision?, Option.bind_eq_bind, Option.bind_eq_some_iff] at h
  obtain ⟨q₀, hquotient, r₀, hremainder, h⟩ := h
  have hq : q₀.toInt = a.toInt.tdiv b.toInt := toInt_quotient hquotient
  have hr : r₀.toInt = a.toInt.tmod b.toInt := toInt_remainder hremainder
  have hb : b.toInt ≠ 0 := by
    intro hzero
    obtain rfl : b = 0 := Int64.toInt_inj.mp hzero
    cases hquotient
  have hcorrect : (r₀ ≠ 0 ∧ decide (r₀ < 0) ≠ decide (b < 0)) ↔
      (r₀.toInt ≠ 0 ∧ r₀.toInt.sign ≠ b.toInt.sign) := by
    rw [ne_eq, ne_eq, decide_eq_decide, ← Int64.toInt_inj, Int64.lt_iff_toInt_lt,
      Int64.lt_iff_toInt_lt]
    exact and_congr_right fun hr₀ => (sign_ne_iff hr₀ hb).symm
  rw [flooredDivision, ← hq, ← hr]
  split at h
  · next hsigns =>
      obtain ⟨rfl, rfl⟩ := Prod.mk.inj (Option.some.inj h)
      have hsigns := hcorrect.mp hsigns
      have hinside := quotient_inside a.le_toInt a.toInt_lt (hr ▸ hsigns.1)
      have hopposite := (sign_ne_iff hsigns.1 hb).mp hsigns.2
      have hr₀ := And.intro r₀.le_toInt r₀.toInt_lt
      have hb₀ := And.intro b.le_toInt b.toInt_lt
      have hone : (1 : Word).toInt = 1 := rfl
      rw [if_pos hsigns, toInt_sub_of_inside (by omega) (by omega),
        toInt_add_of_inside (by omega) (by omega), hone]
  · next hsigns =>
      obtain ⟨rfl, rfl⟩ := Prod.mk.inj (Option.some.inj h)
      rw [if_neg (hcorrect.not.mp hsigns)]

theorem overflow_of_flooredDivision_eq_none {a b : Word} (hb : b ≠ 0)
    (h : flooredDivision? a b = none) : a = Int64.minValue ∧ b = -1 := by
  cases hoverflow : divisionOverflows a b with
  | true => simpa [divisionOverflows, hb] using hoverflow
  | false =>
      simp only [flooredDivision?, quotient?, remainder?, hoverflow, Bool.false_eq_true, if_false,
        Option.bind_eq_bind, Option.bind_some] at h
      split at h <;> cases h

end ReversePolish.Word
