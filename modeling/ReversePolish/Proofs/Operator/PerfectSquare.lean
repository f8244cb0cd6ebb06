import ReversePolish.Proofs.Operator.Exact
import ReversePolish.Proofs.Operator.Scalars

/-! # Square roots of integers

The root of a perfect square is exact, and represented as the square is. Any other is a real. -/

namespace ReversePolish

/-- What comes of the square root of an integer. -/
structure IsRoot (a : Value) (n : ℤ) (r : Except Error Value) : Prop where
  /-- Just the negative integers are refused. -/
  refused : (∃ err, r = .error err ∧ err.kind = .domain) ↔ n < 0
  /-- A perfect square has its root, in the same representation, -/
  exact : ∀ root : ℕ, n = root * root →
    ∃ v, r = .ok v ∧ v.integer? = some (root : ℤ) ∧ v.kind = a.kind
  /-- and any other integer that of the real for it. -/
  approximate : 0 ≤ n → (∀ root : ℕ, n ≠ root * root) → r = .ok (.real (Binary64.ofInt n).sqrt)

namespace Arithmetic

/-- The root is looked for in the integers first, and given in some representation. -/
theorem isRoot_integerRoot {a : Value} {n : ℤ} (represent : ℕ → Value)
    (hrepresent : ∀ root, exactRoot? n = some root →
      (represent root).integer? = some (root : ℤ) ∧ (represent root).kind = a.kind) :
    IsRoot a n (integerRoot n ((exactRoot? n).map represent)) := by
  have hnot_neg (root : ℕ) (h : n = root * root) : ¬ n < 0 := by
    rw [h, not_lt]
    positivity
  unfold integerRoot
  by_cases hneg : n < 0
  · rw [if_pos hneg]
    exact ⟨iff_of_true ⟨_, rfl, rfl⟩ hneg, fun root h => absurd hneg (hnot_neg root h),
      fun hpos => absurd hneg hpos.not_gt⟩
  · rw [if_neg hneg]
    cases hroot : exactRoot? n with
    | some root =>
        have hsquare := exactRoot?_eq_some.mp hroot
        refine ⟨iff_of_false (by simp) hneg, fun other h => ⟨_, rfl, ?_⟩,
          fun _ hnone => absurd hsquare.symm (hnone root)⟩
        obtain rfl : root = other := by
          rw [← hsquare] at h
          exact Nat.mul_self_inj.mp (by exact_mod_cast h)
        exact hrepresent root hroot
    | none =>
        refine ⟨iff_of_false (by simp) hneg, fun root h => ?_, fun _ _ => rfl⟩
        rw [exactRoot?_eq_some.mpr h.symm] at hroot
        cases hroot

variable {limits : Limits}

/-- The search among machine integers has the result of the one among all integers. -/
theorem sqrt_int (w : Word) : sqrt limits [.int w] =
    integerRoot w.toInt ((exactRoot? w.toInt).map fun root : ℕ => .int (Int64.ofInt root)) := by
  simp only [sqrt, Operator.unary, wordRoot?_eq]
  cases exactRoot? w.toInt <;> rfl

theorem sqrt_bigInt (n : ℤ) : sqrt limits [.bigInt n] =
    integerRoot n ((exactRoot? n).map fun root : ℕ => .bigInt root) := by
  simp only [sqrt, Operator.unary]
  cases exactRoot? n <;> rfl

theorem isRoot_sqrt {s : Scalar} {n : ℤ} (hs : s.integer? = some n) :
    IsRoot (.scalar s) n (sqrt limits [.scalar s]) := by
  match s, hs with
  | .int w, rfl =>
      rw [sqrt_int]
      exact isRoot_integerRoot _ fun root hroot => ⟨congrArg some (toInt_ofInt_root hroot), rfl⟩
  | .bigInt _, rfl =>
      rw [sqrt_bigInt]
      exact isRoot_integerRoot _ fun _ _ => ⟨rfl, rfl⟩

theorem apply_sqrt (s : Scalar) :
    operators[10].apply limits [.scalar s] = sqrt limits [.scalar s] :=
  apply_one List.mem_cons_self s

/-- Perfect squares have exact roots, however large they are and however they are represented. -/
theorem perfect_squares_have_roots {catalog : Catalog} (hcatalog : Catalog.standard = .ok catalog)
    (limits : Limits) {a : Value} {n : ℤ} (ha : a.integer? = some n) :
    ∃ sqrt, catalog.find? "sqrt" = some sqrt ∧ IsRoot a n (sqrt.apply limits [a]) := by
  obtain ⟨s, rfl, hs⟩ := Value.exists_scalar_of_integer? ha
  refine ⟨operators[10], find?_operator hcatalog 10 (by decide), ?_⟩
  rw [apply_sqrt]
  exact isRoot_sqrt hs

/-- The greatest square among machine integers, which no real is exact for. -/
theorem perfect_squares_have_roots_up_to_greatest_word :
    let catalog := Catalog.standard.toOption.getD .empty
    ∃ sqrt, catalog.find? "sqrt" = some sqrt ∧
      sqrt.apply ⟨.onOverflow, 65536⟩ [.int 9223372030926249001] = .ok (.int 3037000499) := by
  intro catalog
  obtain ⟨sqrt, hsqrt, hroot⟩ := perfect_squares_have_roots Catalog.standard_eq
    ⟨.onOverflow, 65536⟩ (a := .int 9223372030926249001) rfl
  obtain ⟨v, hv, hvalue, hkind⟩ := hroot.exact 3037000499 (by decide)
  refine ⟨sqrt, hsqrt, hv.trans ?_⟩
  obtain ⟨w, rfl, hw⟩ | rfl := Value.integer?_eq_some.mp hvalue
  · rw [← Int64.toInt_inj.mp (show w.toInt = (3037000499 : Word).toInt from hw)]
  · cases hkind

end Arithmetic

end ReversePolish
