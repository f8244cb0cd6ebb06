import ReversePolish.Proofs.Binary64.Integer
import ReversePolish.Proofs.Binary64.Quotient
import ReversePolish.Proofs.Operator.Division
import ReversePolish.Proofs.Operator.PerfectSquare

/-! # Inexact results of large integers

A quotient or a root that is no integer is that of the reals for the operands. An operand beyond the
finite reals is infinite by then, however ordinary the exact result would be. -/

namespace ReversePolish

open Binary64

/-- What is settled exactly is an integer or refused. -/
theorem Settles.ne_real {op : String} {limits : Limits} {args : List Value} {n : ℤ}
    {r : Except Error Value} (h : Settles op limits args n r)
    (hargs : ∀ a ∈ args, a.kind ∈ [Kind.int, Kind.bigInt]) (x : Float) : r ≠ .ok (.real x) := by
  by_cases hwide : ∃ a ∈ args, a.kind = .bigInt
  · rw [h.wide hwide]
    nofun
  · have hwords : ∀ a ∈ args, a.kind = .int := by
      intro a ha
      have hkind := hargs a ha
      simp only [List.mem_cons, List.not_mem_nil, or_false] at hkind
      exact hkind.resolve_right fun hbig => hwide ⟨a, ha, hbig⟩
    by_cases hfits : -2 ^ 63 ≤ n ∧ n < 2 ^ 63
    · obtain ⟨w, -, hr⟩ := h.fits hwords hfits
      rw [hr]
      nofun
    · cases hpromotion : limits.promotion with
      | onOverflow =>
        rw [h.promoted hwords hfits hpromotion]
        nofun
      | explicit =>
        rw [h.refused hwords hfits hpromotion]
        nofun

namespace Arithmetic

/-! ## Quotients -/

theorem two_le_natAbs {m n : ℤ} (h : ¬ n ∣ m) (hn : n ≠ 0) : 2 ≤ n.natAbs := by
  by_contra hlt
  have hunit : n.natAbs = 1 := by omega
  exact h ((Int.isUnit_iff_natAbs_eq.mpr hunit).dvd)

theorem isFinite_quotient {m n : ℤ} (h : ¬ n ∣ m) (hn : n ≠ 0)
    (hm : (m.natAbs : ℚ) < overflowBound) : isFinite (ofInt m / ofInt n) := by
  have hge := two_pow_le_magnitude_ofInt (k := 1) (by decide) (two_le_natAbs h hn)
  rw [pow_one] at hge
  exact isFinite_div ((isFinite_ofInt_iff m).mpr hm) (not_isNaN_ofInt n) hge

/-- The quotient of the reals for two integers is finite just as the dividend is. -/
theorem isFinite_quotient_iff {m n : ℤ} (h : ¬ n ∣ m) (hn : n ≠ 0) :
    isFinite (ofInt m / ofInt n) ↔ (m.natAbs : ℚ) < overflowBound := by
  refine ⟨fun hfinite => not_le.mp fun hm => ?_, isFinite_quotient h hn⟩
  rcases lt_or_ge (n.natAbs : ℚ) overflowBound with hlt | hge
  · exact not_isFinite_of_eq
      (magnitudeBits_div (magnitudeBits_ofInt hm) ((isFinite_ofInt_iff n).mpr hlt)) hfinite
  · have hnan := isNaN_div (magnitudeBits_ofInt hm) (magnitudeBits_ofInt hge)
    rw [isNaN_of_isFinite hfinite] at hnan
    cases hnan

theorem isNaN_quotient_iff {m n : ℤ} (h : ¬ n ∣ m) (hn : n ≠ 0) :
    (ofInt m / ofInt n).isNaN ↔
      overflowBound ≤ (m.natAbs : ℚ) ∧ overflowBound ≤ (n.natAbs : ℚ) := by
  refine ⟨fun hnan => ?_, fun ⟨hm, hn⟩ =>
    isNaN_div (magnitudeBits_ofInt hm) (magnitudeBits_ofInt hn)⟩
  have hm : overflowBound ≤ (m.natAbs : ℚ) := by
    refine not_lt.mp fun hlt => ?_
    rw [isNaN_of_isFinite (isFinite_quotient h hn hlt)] at hnan
    cases hnan
  refine ⟨hm, not_lt.mp fun hlt => ?_⟩
  exact not_isNaN_of_eq
    (magnitudeBits_div (magnitudeBits_ofInt hm) ((isFinite_ofInt_iff n).mpr hlt)) hnan

/-! ## Roots -/

theorem not_isNegative_ofInt {n : ℤ} (hn : 0 ≤ n) : ¬ isNegative (ofInt n) := by
  rw [isNegative_ofInt, decide_eq_true_eq]
  exact hn.not_gt

/-- The root of the real for an integer is finite just as that real is. -/
theorem isFinite_root_iff {n : ℤ} (hn : 0 ≤ n) :
    isFinite (ofInt n).sqrt ↔ (n.natAbs : ℚ) < overflowBound := by
  refine ⟨fun hfinite => not_le.mp fun hge => ?_, fun hlt => ?_⟩
  · exact not_isFinite_of_eq
      (magnitudeBits_sqrt (magnitudeBits_ofInt hge) (not_isNegative_ofInt hn)) hfinite
  · exact isFinite_sqrt ((isFinite_ofInt_iff n).mpr hlt) (not_isNegative_ofInt hn)

theorem not_isNaN_root {n : ℤ} (hn : 0 ≤ n) : ¬ (ofInt n).sqrt.isNaN := by
  rcases lt_or_ge (n.natAbs : ℚ) overflowBound with hlt | hge
  · rw [isNaN_of_isFinite ((isFinite_root_iff hn).mpr hlt)]
    exact Bool.false_ne_true
  · exact not_isNaN_of_eq
      (magnitudeBits_sqrt (magnitudeBits_ofInt hge) (not_isNegative_ofInt hn))

/-! ## The operators -/

variable {catalog : Catalog}

theorem divValues_ne_real {limits : Limits} {s t : Scalar} {m n : ℤ} (hs : s.integer? = some m)
    (ht : t.integer? = some n) (hn : n ≠ 0) (h : n ∣ m) (x : Float) :
    divValues limits (.scalar s) (.scalar t) ≠ .ok (.real x) := by
  obtain ⟨q, hq⟩ := h
  refine (settles_divValues hs ht hn (hq.trans (mul_comm n q))).ne_real ?_ x
  have hs : (Value.scalar s).integer? = some m := hs
  have ht : (Value.scalar t).integer? = some n := ht
  exact List.forall_mem_cons.mpr ⟨Value.kind_of_integer? hs,
    List.forall_mem_singleton.mpr (Value.kind_of_integer? ht)⟩

/-- A quotient that is no integer is finite exactly if the dividend has a finite real, and NaN if
neither operand has one. A root that is no integer is finite exactly if its square has a finite
real, and else infinite. -/
theorem inexact_results_saturate (hcatalog : Catalog.standard = .ok catalog) (limits : Limits) :
    ∃ div sqrt, catalog.find? "div" = some div ∧ catalog.find? "sqrt" = some sqrt ∧
      (∀ (a b : Value) (m n : ℤ), a.integer? = some m → b.integer? = some n → n ≠ 0 →
        (¬ n ∣ m ↔ ∃ x, div.apply limits [a, b] = .ok (.real x)) ∧
        ∀ x, div.apply limits [a, b] = .ok (.real x) →
          (isFinite x ↔ (m.natAbs : ℚ) < overflowBound) ∧
          (x.isNaN ↔ overflowBound ≤ (m.natAbs : ℚ) ∧ overflowBound ≤ (n.natAbs : ℚ))) ∧
      ∀ (a : Value) (n : ℤ), a.integer? = some n → 0 ≤ n → (∀ root : ℕ, n ≠ root * root) →
        ∃ x, sqrt.apply limits [a] = .ok (.real x) ∧
          (isFinite x ↔ (n.natAbs : ℚ) < overflowBound) ∧ ¬ x.isNaN := by
  refine ⟨operators[3], operators[10], find?_operator hcatalog 3 (by decide),
    find?_operator hcatalog 10 (by decide), fun a b m n ha hb hn => ?_, fun a n ha hn hnot => ?_⟩
  · obtain ⟨s, rfl, hs⟩ := Value.exists_scalar_of_integer? ha
    obtain ⟨t, rfl, ht⟩ := Value.exists_scalar_of_integer? hb
    have happly : operators[3].apply limits [.scalar s, .scalar t] =
        divValues limits (.scalar s) (.scalar t) := apply_two List.mem_cons_self s t
    rw [happly]
    refine ⟨⟨fun h => ⟨_, divValues_of_not_dvd hs ht hn h⟩, fun ⟨x, hx⟩ hdvd =>
      divValues_ne_real hs ht hn hdvd x hx⟩, fun x hx => ?_⟩
    have h : ¬ n ∣ m := fun hdvd => divValues_ne_real hs ht hn hdvd x hx
    rw [divValues_of_not_dvd hs ht hn h, Except.ok.injEq, Value.scalar.injEq,
      Scalar.real.injEq] at hx
    rw [← hx]
    exact ⟨isFinite_quotient_iff h hn, isNaN_quotient_iff h hn⟩
  · obtain ⟨s, rfl, hs⟩ := Value.exists_scalar_of_integer? ha
    rw [apply_sqrt]
    exact ⟨_, (isRoot_sqrt hs).approximate hn hnot, isFinite_root_iff hn, not_isNaN_root hn⟩

/-- The operands are next to each other and beyond the finite reals. -/
theorem inexact_results_saturate_next_to_one :
    let catalog := Catalog.standard.toOption.getD .empty
    ∃ div sqrt, catalog.find? "div" = some div ∧ catalog.find? "sqrt" = some sqrt ∧
      (∃ x, div.apply ⟨.onOverflow, 65536⟩ [.bigInt (2 ^ 1024 + 1), .bigInt (2 ^ 1024)] =
        .ok (.real x) ∧ x.isNaN) ∧
      ∃ x, sqrt.apply ⟨.onOverflow, 65536⟩ [.int 2] = .ok (.real x) ∧ isFinite x := by
  intro catalog
  obtain ⟨div, sqrt, hdiv, hsqrt, hquotient, hroot⟩ :=
    inexact_results_saturate Catalog.standard_eq ⟨.onOverflow, 65536⟩
  refine ⟨div, sqrt, hdiv, hsqrt, ?_, ?_⟩
  · obtain ⟨hreal, hvalue⟩ := hquotient (.bigInt (2 ^ 1024 + 1)) (.bigInt (2 ^ 1024)) _ _ rfl rfl
      (by decide +kernel)
    obtain ⟨x, hx⟩ := hreal.mp (by decide +kernel)
    refine ⟨x, hx, (hvalue x hx).2.mpr ?_⟩
    rw [overflowBound_eq, Nat.cast_le, Nat.cast_le]
    decide +kernel
  · have hnot (root : ℕ) : (2 : ℤ) ≠ root * root := fun h =>
      Nat.not_exists_sq (n := 2) (m := 1) (by decide) (by decide) ⟨root, by exact_mod_cast h.symm⟩
    obtain ⟨x, hx, hfinite, -⟩ := hroot (.int 2) 2 rfl (by decide) hnot
    refine ⟨x, hx, hfinite.mpr ?_⟩
    rw [overflowBound_eq, Nat.cast_lt]
    decide +kernel

/-- A quotient next to one is NaN, and a root of 513 bits is infinite. -/
theorem ordinary_results_not_finite :
    let catalog := Catalog.standard.toOption.getD .empty
    ∃ div sqrt, catalog.find? "div" = some div ∧ catalog.find? "sqrt" = some sqrt ∧
      (∃ x, div.apply ⟨.onOverflow, 65536⟩ [.bigInt (2 ^ 1024 + 1), .bigInt (2 ^ 1024)] =
        .ok (.real x) ∧ x.isNaN ∧ (2 ^ 1024 + 1 : ℤ) < 2 ^ 1023 * 2 ^ 1024) ∧
      ∃ x, sqrt.apply ⟨.onOverflow, 65536⟩ [.bigInt (2 ^ 1024 + 1)] = .ok (.real x) ∧
        ¬ isFinite x ∧ (∀ root : ℕ, (2 ^ 1024 + 1 : ℤ) ≠ root * root) ∧
        (2 ^ 1024 + 1 : ℤ) < 2 ^ 1023 * 2 ^ 1023 := by
  have hdvd : ¬ (2 ^ 1024 : ℤ) ∣ 2 ^ 1024 + 1 := by decide +kernel
  have hzero : (2 ^ 1024 : ℤ) ≠ 0 := by decide +kernel
  have hlarge : overflowBound ≤ ((2 ^ 1024 + 1 : ℤ).natAbs : ℚ) ∧
      overflowBound ≤ ((2 ^ 1024 : ℤ).natAbs : ℚ) := by
    rw [overflowBound_eq, Nat.cast_le, Nat.cast_le]
    decide +kernel
  have hpos : (0 : ℤ) ≤ 2 ^ 1024 + 1 := by decide +kernel
  have hnot (root : ℕ) : (2 ^ 1024 + 1 : ℤ) ≠ root * root := fun h =>
    Nat.not_exists_sq (n := 2 ^ 1024 + 1) (m := 2 ^ 512) (by decide +kernel) (by decide +kernel)
      ⟨root, by exact_mod_cast h.symm⟩
  refine ⟨operators[3], operators[10], find?_operator Catalog.standard_eq 3 (by decide),
    find?_operator Catalog.standard_eq 10 (by decide),
    ⟨ofInt (2 ^ 1024 + 1) / ofInt (2 ^ 1024), ?_, ?_, by decide +kernel⟩,
    (ofInt (2 ^ 1024 + 1)).sqrt, ?_, ?_, hnot, by decide +kernel⟩
  · exact (apply_two List.mem_cons_self _ _).trans (divValues_of_not_dvd rfl rfl hzero hdvd)
  · exact (isNaN_quotient_iff hdvd hzero).mpr hlarge
  · exact (apply_sqrt _).trans ((isRoot_sqrt rfl).approximate hpos hnot)
  · exact mt (isFinite_root_iff hpos).mp hlarge.1.not_gt

end Arithmetic

end ReversePolish
