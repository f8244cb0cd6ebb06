import ReversePolish.Operator.Arithmetic
import ReversePolish.Proofs.Binary64.Root
import ReversePolish.Proofs.Value.Word

/-! # Roots of machine integers

The search next to the root of reals finds what the integer root finds. -/

namespace ReversePolish.Arithmetic

theorem exactRoot?_eq_some {n : ℤ} {root : ℕ} :
    exactRoot? n = some root ↔ (root * root : ℤ) = n := by
  unfold exactRoot?
  dsimp only
  constructor
  · intro h
    split at h
    · next hsquare =>
        obtain rfl := Option.some.inj h
        exact_mod_cast hsquare
    · cases h
  · rintro rfl
    have hroot : ((root * root : ℤ).toNat).sqrt = root := by
      rw [← Nat.cast_mul, Int.toNat_natCast, Nat.sqrt_eq]
    simp [hroot]

theorem sq_of_wordRoot?_eq_some {n root : Word} (h : wordRoot? n = some root) :
    root.toInt * root.toInt = n.toInt := by
  have hfound := List.find?_some h
  exact (Word.toInt_of_checked (of_decide_eq_true hfound)).symm

theorem toInt_mem_nearby {near : Word} {root : ℕ} (hroot : root < 2 ^ 32)
    (hlow : (root : ℤ) - 1 ≤ near.toInt) (hhigh : near.toInt ≤ root + 1) :
    (∀ r ∈ Word.nearby near, (root : ℤ) - 2 ≤ r.toInt) ∧
      ∃ r ∈ Word.nearby near, r.toInt = root := by
  have hbelow : (Int64.ofIntClamp (near.toInt - 1)).toInt = near.toInt - 1 :=
    Int64.toInt_ofIntClamp (by rw [Int64.toInt_minValue]; omega) (by rw [Int64.toInt_maxValue]; omega)
  have habove : (Int64.ofIntClamp (near.toInt + 1)).toInt = near.toInt + 1 :=
    Int64.toInt_ofIntClamp (by rw [Int64.toInt_minValue]; omega) (by rw [Int64.toInt_maxValue]; omega)
  constructor
  · intro _ hr
    simp only [Word.nearby, List.mem_cons, List.not_mem_nil, or_false] at hr
    rcases hr with rfl | rfl | rfl <;> omega
  · simp only [Word.nearby, List.mem_cons, List.not_mem_nil, or_false, exists_eq_or_imp,
      exists_eq_left, hbelow, habove]
    omega

/-- Both the root and its negative square to the number, but the search stays among the positive
integers. -/
theorem wordRoot?_of_sq {n : Word} {root : ℕ} (h : (root * root : ℤ) = n.toInt) :
    wordRoot? n = some (Int64.ofInt root) := by
  have hlt : root * root < 2 ^ 63 := by
    have := n.toInt_lt
    omega
  rcases Nat.lt_or_ge root 2 with hsmall | hr
  · obtain rfl | rfl : root = 0 ∨ root = 1 := by omega
    · obtain rfl : 0 = n := Int64.toInt_inj.mp h
      decide +kernel
    · obtain rfl : 1 = n := Int64.toInt_inj.mp h
      decide +kernel
  · have hshort : root < 2 ^ 32 := by nlinarith
    obtain ⟨hlow, hhigh⟩ := Binary64.toInt64_sqrt_near hr hlt
    rw [Nat.cast_mul, h] at hlow hhigh
    obtain ⟨hpositive, r, hmem, hroot⟩ := toInt_mem_nearby hshort hlow hhigh
    have hsquare : Word.checked (· * ·) r r = some n := by
      rw [Word.checked, hroot, h, Word.ofInt?_toInt]
    cases hfound : wordRoot? n with
    | none =>
        exact absurd (decide_eq_true hsquare) (List.find?_eq_none.mp hfound r hmem)
    | some found =>
        have hfound_pos := hpositive found (List.mem_of_find?_eq_some hfound)
        have hsq := (sq_of_wordRoot?_eq_some hfound).trans h.symm
        have heq : found.toInt = root := (mul_self_inj (by omega) (by omega)).mp hsq
        rw [← heq, Int64.ofInt_toInt]

/-- The root of a machine integer is the machine integer for the root. -/
theorem wordRoot?_eq (n : Word) :
    wordRoot? n = (exactRoot? n.toInt).map fun root => Int64.ofInt root := by
  cases hexact : exactRoot? n.toInt with
  | some root => exact wordRoot?_of_sq (exactRoot?_eq_some.mp hexact)
  | none =>
      cases hword : wordRoot? n with
      | none => rfl
      | some root =>
          have hsq : (root.toInt.natAbs * root.toInt.natAbs : ℤ) = n.toInt := by
            rw [← Int.natCast_mul, Int.natAbs_mul_self, sq_of_wordRoot?_eq_some hword]
          rw [exactRoot?_eq_some.mpr hsq] at hexact
          cases hexact

/-- A root is no larger than its square, and so a machine integer with it. -/
theorem toInt_ofInt_root {n : Word} {root : ℕ} (h : exactRoot? n.toInt = some root) :
    (Int64.ofInt root).toInt = root := by
  have hsq := exactRoot?_eq_some.mp h
  have hlt := n.toInt_lt
  have hle : (root : ℤ) ≤ root * root := by exact_mod_cast Nat.le_mul_self root
  exact Int64.toInt_ofInt_of_le (by omega) (by omega)

end ReversePolish.Arithmetic
