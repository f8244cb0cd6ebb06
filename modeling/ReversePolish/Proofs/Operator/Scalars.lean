import ReversePolish.Proofs.Catalog.Standard
import ReversePolish.Proofs.Operator.Accepted

/-! # Operators on scalars

Two integers have a common rank of integers, and the operators of arithmetic accept scalars. -/

namespace ReversePolish

/-- The common rank of two integers is that of machine integers only if both are such. -/
theorem Scalar.promote_integers {s t : Scalar} {m n : ℤ} (hs : s.integer? = some m)
    (ht : t.integer? = some n) :
    (∃ a b : Word, (s = .int a ∧ a.toInt = m) ∧ t = .int b ∧ b.toInt = n) ∨
      (∃ v ∈ [Value.scalar s, .scalar t], v.kind = .bigInt) ∧ promote s t = .bigInt m n := by
  match s, t, hs, ht with
  | .int a, .int b, rfl, rfl => exact .inl ⟨a, b, ⟨rfl, rfl⟩, rfl, rfl⟩
  | .int _, .bigInt _, rfl, rfl =>
      exact .inr ⟨⟨_, List.mem_cons_of_mem _ List.mem_cons_self, rfl⟩, rfl⟩
  | .bigInt _, .int _, rfl, rfl => exact .inr ⟨⟨_, List.mem_cons_self, rfl⟩, rfl⟩
  | .bigInt _, .bigInt _, rfl, rfl => exact .inr ⟨⟨_, List.mem_cons_self, rfl⟩, rfl⟩

theorem Operator.apply_of_fits {op : Operator} {sig : Signature} (hop : sig ∈ op.signatures)
    (limits : Limits) {args : List Value} (h : sig.Fits args) :
    op.apply limits args = op.evaluate limits args := by
  rw [Operator.apply, if_pos (Operator.accepts_iff.mpr ⟨sig, hop, h⟩)]

/-- As many scalars as a signature has places for them. -/
theorem Signature.fits_scalars (ss : List Scalar) :
    Fits (List.replicate ss.length .scalar) (ss.map .scalar) := by
  induction ss with
  | nil => exact .nil
  | cons s ss ih => exact .cons (KindSet.contains_scalar.mpr ⟨s, rfl⟩) ih

namespace Arithmetic

variable {limits : Limits}

theorem apply_one {op : Operator} (hop : scalars ∈ op.signatures) (s : Scalar) :
    op.apply limits [.scalar s] = op.evaluate limits [.scalar s] :=
  Operator.apply_of_fits hop limits (Signature.fits_scalars [s])

theorem apply_two {op : Operator} (hop : scalarPairs ∈ op.signatures) (s t : Scalar) :
    op.apply limits [.scalar s, .scalar t] = op.evaluate limits [.scalar s, .scalar t] :=
  Operator.apply_of_fits hop limits (Signature.fits_scalars [s, t])

theorem find?_operator {catalog : Catalog} (hcatalog : Catalog.standard = .ok catalog) (i : ℕ)
    (hi : i < operators.length) : catalog.find? operators[i].name = some operators[i] :=
  Catalog.find?_standard hcatalog (List.mem_flatMap_of_mem List.mem_cons_self (List.getElem_mem hi))

end Arithmetic

theorem LinearAlgebra.find?_operator {catalog : Catalog} (hcatalog : Catalog.standard = .ok catalog)
    (i : ℕ) (hi : i < operators.length) :
    catalog.find? operators[i].name = some operators[i] :=
  Catalog.find?_standard hcatalog (List.mem_flatMap_of_mem
    (List.mem_cons_of_mem _ (List.mem_cons_of_mem _ List.mem_cons_self)) (List.getElem_mem hi))

theorem UnitConversion.find?_operator {catalog : Catalog}
    (hcatalog : Catalog.standard = .ok catalog) (i : ℕ) (hi : i < operators.length) :
    catalog.find? operators[i].name = some operators[i] :=
  Catalog.find?_standard hcatalog (List.mem_flatMap_of_mem
    (List.getElem_mem (show 5 < Library.standard.length by decide)) (List.getElem_mem hi))

end ReversePolish
