import ReversePolish.Proofs.Catalog.Assembled
import ReversePolish.Proofs.Operator.Safe.Arithmetic
import ReversePolish.Proofs.Operator.Safe.Functions

/-! # Operators of the standard libraries cause no internal errors -/

namespace ReversePolish

/-- Whether the operator is safe for all arguments that it accepts. -/
def Operator.IsSafe (op : Operator) : Prop :=
  ∀ sig ∈ op.signatures, Evaluation.SafeOn op.evaluate sig

namespace Operator

variable {op : Operator}

theorem isSafe_of_signature {sig : Signature} (hsig : op.signatures = [sig])
    (h : Evaluation.SafeOn op.evaluate sig) : op.IsSafe := by
  intro other hother
  rw [hsig, List.mem_singleton] at hother
  rwa [hother]

theorem IsSafe.apply (h : op.IsSafe) (limits : Limits) {args : List Value}
    (hargs : ∀ v ∈ args, Value.Known v) : Safe Value.Known (op.apply limits args) := by
  rw [Operator.apply]
  split
  · next haccepts =>
    obtain ⟨sig, hsig, hfits⟩ := accepts_iff.mp haccepts
    exact h sig hsig limits args hfits hargs
  · rfl

end Operator

open Operator

/-! ## The libraries -/

theorem Arithmetic.operators_isSafe : ∀ op ∈ Arithmetic.operators, IsSafe op := by
  simp only [operators, List.forall_mem_cons]
  exact ⟨add_safe, sub_safe, mul_safe, div_safe, isSafe_of_signature rfl floorDiv_safe,
    isSafe_of_signature rfl floorMod_safe, neg_safe, isSafe_of_signature rfl abs_safe,
    isSafe_of_signature rfl pow_safe, square_safe, isSafe_of_signature rfl sqrt_safe,
    isSafe_of_signature rfl inv_safe, isSafe_of_signature rfl min_safe,
    isSafe_of_signature rfl max_safe, isSafe_of_signature rfl sign_safe, List.forall_mem_nil _⟩

theorem Elementary.operators_isSafe : ∀ op ∈ Elementary.operators, IsSafe op := by
  simp only [operators, List.forall_mem_cons]
  exact ⟨isSafe_of_signature rfl real_safe, isSafe_of_signature rfl real_safe,
    isSafe_of_signature rfl real_safe, isSafe_of_signature rfl (realWhere_safe nofun),
    isSafe_of_signature rfl (realWhere_safe nofun), isSafe_of_signature rfl real_safe,
    isSafe_of_signature rfl angle_safe, isSafe_of_signature rfl real_safe,
    isSafe_of_signature rfl (realWhere_safe nofun),
    isSafe_of_signature rfl (realWhere_safe nofun), isSafe_of_signature rfl rounding_safe,
    isSafe_of_signature rfl rounding_safe, isSafe_of_signature rfl rounding_safe,
    isSafe_of_signature rfl rounding_safe, List.forall_mem_nil _⟩

theorem LinearAlgebra.operators_isSafe : ∀ op ∈ LinearAlgebra.operators, IsSafe op := by
  simp only [operators, List.forall_mem_cons]
  exact ⟨isSafe_of_signature rfl composeVector_safe, isSafe_of_signature rfl composeVector_safe,
    isSafe_of_signature rfl composeVector_safe, isSafe_of_signature rfl composeMatrix_safe,
    isSafe_of_signature rfl composeMatrix_safe, isSafe_of_signature rfl composeMatrix_safe,
    isSafe_of_signature rfl dot_safe, isSafe_of_signature rfl cross_safe,
    isSafe_of_signature rfl norm_safe, isSafe_of_signature rfl normalize_safe,
    isSafe_of_signature rfl transpose_safe, isSafe_of_signature rfl determinant_safe,
    isSafe_of_signature rfl inverse_safe, List.forall_mem_nil _⟩

theorem Conversion.operators_isSafe : ∀ op ∈ Conversion.operators, IsSafe op := by
  simp only [operators, List.forall_mem_cons]
  exact ⟨isSafe_of_signature rfl toReal_safe, isSafe_of_signature rfl toBigInt_safe,
    isSafe_of_signature rfl toInt_safe, List.forall_mem_nil _⟩

theorem Constants.operators_isSafe : ∀ op ∈ Constants.operators, IsSafe op := by
  simp only [operators, List.forall_mem_cons]
  exact ⟨isSafe_of_signature rfl constant_safe, isSafe_of_signature rfl constant_safe,
    List.forall_mem_nil _⟩

theorem UnitConversion.operators_isSafe : ∀ op ∈ UnitConversion.operators, IsSafe op := by
  simp only [operators, List.forall_mem_cons]
  exact ⟨isSafe_of_signature rfl convert_safe, isSafe_of_signature rfl toBaseUnit_safe,
    List.forall_mem_nil _⟩

/-! ## The catalogs -/

theorem Catalog.operators_isSafe :
    ∀ op ∈ Library.standard.flatMap Library.operators, op.IsSafe :=
  forall_standard Arithmetic.operators_isSafe Elementary.operators_isSafe
    LinearAlgebra.operators_isSafe Conversion.operators_isSafe Constants.operators_isSafe
    UnitConversion.operators_isSafe

theorem Catalog.Assembled.isSafe {c : Catalog} (h : c.Assembled) {op : Operator}
    (hop : op ∈ c.operators) : op.IsSafe :=
  Catalog.operators_isSafe op (h.operators_subset op hop)

end ReversePolish
