import ReversePolish.Proofs.Linear.Norm
import ReversePolish.Proofs.Operator.Scalars
import ReversePolish.Proofs.Value.Shape

/-! # Unit vectors

A vector of finite components has a direction as far as the squares of its components show one: it
is taken for the zero vector if they all underflow, and becomes the zero vector if they overflow. -/

namespace ReversePolish.LinearAlgebra

open Operator Binary64

variable {catalog : Catalog}

theorem apply_normalize (limits : Limits) (d : Dimension) (v : RealVector d.size) :
    operators[9].apply limits [.vector d v] = normalize limits [.vector d v] := by
  have hfits : Signature.Fits [.vector] [.vector d v] :=
    .cons (KindSet.contains_vector.mpr ⟨d, v, rfl⟩) .nil
  rw [apply_of_fits List.mem_cons_self limits hfits]
  rfl

section Evaluation

variable (limits : Limits) {d : Dimension} {v w : RealVector d.size}

theorem apply_normalize_of_none (h : v.normalized? = none) :
    operators[9].apply limits [.vector d v] = .error (.domain "normalize" .zeroVector) := by
  simp only [apply_normalize, normalize, unary, h]

theorem apply_normalize_of_some (h : v.normalized? = some w) :
    operators[9].apply limits [.vector d v] = .ok (.vector d w) := by
  simp only [apply_normalize, normalize, unary, h]

end Evaluation

/-! ## Which vectors have a direction -/

section Finite

variable (limits : Limits) {d : Dimension} {v : RealVector d.size}
  (hv : ∀ c ∈ v.toList, isFinite c)

include hv

theorem apply_normalize_of_lost (h : ∀ c ∈ v.toList, absValue c ^ 2 ≤ 2 ^ (-1075 : ℤ)) :
    operators[9].apply limits [.vector d v] = .error (.domain "normalize" .zeroVector) := by
  exact apply_normalize_of_none limits
    (if_pos ((RealVector.norm_beq_zero_iff d.size_pos hv).mpr h))

theorem apply_normalize_of_kept (h : ∃ c ∈ v.toList, 2 ^ (-1075 : ℤ) < absValue c ^ 2) :
    operators[9].apply limits [.vector d v] = .ok (.vector d (v.scale (1 / v.norm))) := by
  have hkept : ¬ ∀ c ∈ v.toList, absValue c ^ 2 ≤ 2 ^ (-1075 : ℤ) := by
    push Not
    exact h
  exact apply_normalize_of_some limits
    (if_neg (mt (RealVector.norm_beq_zero_iff d.size_pos hv).mp hkept))

theorem scale_norm_eq_zero_iff (h : ∃ c ∈ v.toList, 2 ^ (-1075 : ℤ) < absValue c ^ 2) :
    (∀ c ∈ (v.scale (1 / v.norm)).toList, absValue c = 0) ↔ ¬ isFinite (v.dot v) := by
  rw [RealVector.toList_scale, List.forall_mem_map]
  constructor
  · intro hall hfinite
    obtain ⟨c, hc, hlarge⟩ := h
    have hsome : magnitudeBits (v.dot v) ≠ 0 := fun hzero =>
      ((RealVector.dot_self_eq_zero_iff d.size_pos hv).mp hzero c hc).not_gt hlarge
    obtain ⟨c, hc, hne⟩ := RealVector.exists_over_norm_ne_zero d.size_pos hv hfinite hsome
      d.size_le_four
    exact hne (hall c hc)
  · intro hoverflow c hc
    exact RealVector.absValue_over_norm_of_overflow d.size_pos hv hoverflow hc

theorem isFinite_dot_of_le (h : ∀ c ∈ v.toList, absValue c ≤ 2 ^ 507) : isFinite (v.dot v) := by
  refine RealVector.isFinite_dot_self d.size_pos hv h ?_
  calc (4 : ℚ) ^ d.size * (2 ^ 507) ^ 2 ≤ 4 ^ 4 * (2 ^ 507) ^ 2 := by
        gcongr
        · norm_num
        · exact d.size_le_four
    _ = 2 ^ (1022 : ℤ) := by
        rw [show (4 : ℚ) ^ 4 = 2 ^ 8 by norm_num, ← pow_mul, ← pow_add, ← zpow_natCast]
        norm_num
    _ < overflowBound := two_zpow_lt_overflowBound (by norm_num)

theorem not_isFinite_dot_of_ge (h : ∃ c ∈ v.toList, 2 ^ 512 ≤ absValue c) :
    ¬ isFinite (v.dot v) := by
  obtain ⟨c, hc, hlarge⟩ := h
  refine RealVector.not_isFinite_dot_self d.size_pos hv hc ?_
  calc overflowBound ≤ 2 ^ (1024 : ℤ) := overflowBound_lt.le
    _ = (2 ^ 512) ^ 2 := by
        rw [← pow_mul, ← zpow_natCast]
        norm_num
    _ ≤ absValue c ^ 2 := pow_le_pow_left₀ (by norm_num) hlarge 2

end Finite

/-- A vector of finite components is refused exactly if the squares of all its components underflow,
and else becomes the zero vector exactly if their sum overflows. -/
theorem normalize_of_finite (hcatalog : Catalog.standard = .ok catalog) (limits : Limits) :
    ∃ normalize, catalog.find? "normalize" = some normalize ∧
      ∀ (d : Dimension) (v : RealVector d.size), (∀ c ∈ v.toList, isFinite c) →
        ((∀ c ∈ v.toList, absValue c ^ 2 ≤ 2 ^ (-1075 : ℤ)) →
          normalize.apply limits [.vector d v] = .error (.domain "normalize" .zeroVector)) ∧
        ((∃ c ∈ v.toList, 2 ^ (-1075 : ℤ) < absValue c ^ 2) →
          ∃ w, normalize.apply limits [.vector d v] = .ok (.vector d w) ∧
            ((∀ c ∈ w.toList, absValue c = 0) ↔ ¬ isFinite (v.dot v))) ∧
        ((∀ c ∈ v.toList, absValue c ≤ 2 ^ 507) → isFinite (v.dot v)) ∧
        ((∃ c ∈ v.toList, 2 ^ 512 ≤ absValue c) → ¬ isFinite (v.dot v)) := by
  refine ⟨operators[9], find?_operator hcatalog 9 (by decide), fun d v hv => ⟨?_, ?_, ?_, ?_⟩⟩
  · exact apply_normalize_of_lost limits hv
  · exact fun hkept => ⟨_, apply_normalize_of_kept limits hv hkept, scale_norm_eq_zero_iff hv hkept⟩
  · exact isFinite_dot_of_le hv
  · exact not_isFinite_dot_of_ge hv

/-- The diagonal of the plane, whose squares are neither lost nor too large. -/
theorem normalize_of_finite_on_diagonal :
    let catalog := Catalog.standard.toOption.getD .empty
    let limits : Limits := ⟨.onOverflow, 65536⟩
    let v : RealVector Dimension.two.size := #v[1, 1]
    (∀ c ∈ v.toList, isFinite c) ∧ (∃ c ∈ v.toList, 2 ^ (-1075 : ℤ) < absValue c ^ 2) ∧
      (∀ c ∈ v.toList, absValue c ≤ 2 ^ 507) ∧
      ∃ normalize w, catalog.find? "normalize" = some normalize ∧
        normalize.apply limits [.vector .two v] = .ok (.vector .two w) ∧
        ∃ c ∈ w.toList, absValue c ≠ 0 := by
  intro catalog limits v
  have hlist : v.toList = [1, 1] := rfl
  have hv : ∀ c ∈ v.toList, isFinite c := by
    simp only [hlist, List.forall_mem_cons]
    exact ⟨isFinite_one, isFinite_one, List.forall_mem_nil _⟩
  have hkept : ∃ c ∈ v.toList, 2 ^ (-1075 : ℤ) < absValue c ^ 2 := by
    refine ⟨1, List.mem_cons_self, ?_⟩
    rw [absValue_one, one_pow]
    exact zpow_lt_one_of_neg₀ one_lt_two (by norm_num)
  have hsmall : ∀ c ∈ v.toList, absValue c ≤ 2 ^ 507 := by
    simp only [hlist, List.forall_mem_cons, absValue_one]
    exact ⟨one_le_pow₀ one_le_two, one_le_pow₀ one_le_two, List.forall_mem_nil _⟩
  obtain ⟨normalize, hfind, hnormalize⟩ := normalize_of_finite Catalog.standard_eq limits
  obtain ⟨-, hvector, hfinite, -⟩ := hnormalize .two v hv
  obtain ⟨w, hw, hzero⟩ := hvector hkept
  refine ⟨hv, hkept, hsmall, normalize, w, hfind, hw, ?_⟩
  by_contra! hall
  exact hzero.mp hall (hfinite hsmall)

/-- A vector of length `1e-200` is refused, and one of length `1e200` becomes the zero vector. -/
theorem short_vector_refused :
    let catalog := Catalog.standard.toOption.getD .empty
    let limits : Limits := ⟨.onOverflow, 65536⟩
    let short := Float.ofBits 0x16687e92154ef7ac
    let long := Float.ofBits 0x6974e718d7d7625a
    short == 1e-200 ∧ long == 1e200 ∧ ¬ short == 0 ∧ ¬ long == 0 ∧
      ∃ normalize w, catalog.find? "normalize" = some normalize ∧
        normalize.apply limits [.vector .two #v[short, 0]] =
          .error (.domain "normalize" .zeroVector) ∧
        normalize.apply limits [.vector .two #v[long, 0]] = .ok (.vector .two w) ∧
        ∀ c ∈ w.toList, c == 0 := by
  intro catalog limits short long
  exact ⟨by decide +kernel, by decide +kernel, by decide +kernel, by decide +kernel,
    operators[9], RealVector.scale #v[long, 0] (1 / RealVector.norm #v[long, 0]),
    find?_operator Catalog.standard_eq 9 (by decide),
    apply_normalize_of_none limits (if_pos (by decide +kernel)),
    apply_normalize_of_some limits (if_neg (by decide +kernel)), by decide +kernel⟩

end ReversePolish.LinearAlgebra
