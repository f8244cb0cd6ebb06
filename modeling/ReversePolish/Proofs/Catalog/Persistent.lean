import ReversePolish.Proofs.Catalog.Assembled
import ReversePolish.Proofs.Operator.Persistent.Arithmetic
import ReversePolish.Proofs.Operator.Persistent.Functions

/-! # Operators of the standard libraries under stricter and looser limits -/

namespace ReversePolish

/-! ## The libraries -/

theorem Arithmetic.operators_persistent :
    ∀ op ∈ Arithmetic.operators, Evaluation.Persistent op.evaluate := by
  simp only [operators, List.forall_mem_cons]
  exact ⟨add_persistent, sub_persistent, mul_persistent, div_persistent, floorDiv_persistent,
    floorMod_persistent, neg_persistent, abs_persistent, pow_persistent, square_persistent,
    sqrt_persistent, inv_persistent, min_persistent, max_persistent, sign_persistent,
    List.forall_mem_nil _⟩

theorem Elementary.operators_persistent :
    ∀ op ∈ Elementary.operators, Evaluation.Persistent op.evaluate := by
  simp only [operators, List.forall_mem_cons]
  exact ⟨real_persistent, real_persistent, real_persistent, realWhere_persistent,
    realWhere_persistent, real_persistent, angle_persistent, real_persistent,
    realWhere_persistent, realWhere_persistent, rounding_persistent, rounding_persistent,
    rounding_persistent, rounding_persistent, List.forall_mem_nil _⟩

theorem LinearAlgebra.operators_persistent :
    ∀ op ∈ LinearAlgebra.operators, Evaluation.Persistent op.evaluate := by
  simp only [operators, List.forall_mem_cons]
  exact ⟨composeVector_persistent, composeVector_persistent, composeVector_persistent,
    composeMatrix_persistent, composeMatrix_persistent, composeMatrix_persistent, dot_persistent,
    cross_persistent, norm_persistent, normalize_persistent, transpose_persistent,
    determinant_persistent, inverse_persistent, List.forall_mem_nil _⟩

theorem Conversion.operators_persistent :
    ∀ op ∈ Conversion.operators, Evaluation.Persistent op.evaluate := by
  simp only [operators, List.forall_mem_cons]
  exact ⟨toReal_persistent, toBigInt_persistent, toInt_persistent, List.forall_mem_nil _⟩

theorem Constants.operators_persistent :
    ∀ op ∈ Constants.operators, Evaluation.Persistent op.evaluate := by
  simp only [operators, List.forall_mem_cons]
  exact ⟨constant_persistent, constant_persistent, List.forall_mem_nil _⟩

theorem UnitConversion.operators_persistent :
    ∀ op ∈ UnitConversion.operators, Evaluation.Persistent op.evaluate := by
  simp only [operators, List.forall_mem_cons]
  exact ⟨convert_persistent, toBaseUnit_persistent, List.forall_mem_nil _⟩

/-! ## The catalogs -/

theorem Catalog.operators_persistent :
    ∀ op ∈ Library.standard.flatMap Library.operators, Evaluation.Persistent op.evaluate :=
  forall_standard Arithmetic.operators_persistent Elementary.operators_persistent
    LinearAlgebra.operators_persistent Conversion.operators_persistent Constants.operators_persistent
    UnitConversion.operators_persistent

theorem Operator.apply_persistent {op : Operator} (h : Evaluation.Persistent op.evaluate) :
    Evaluation.Persistent op.apply := by
  intro strict loose hlimits args
  unfold apply
  split
  · exact h strict loose hlimits args
  · exact .refused (by rfl) _

variable {c : Catalog} {op : Operator}

theorem Catalog.Assembled.persistent (h : c.Assembled) (hop : op ∈ c.operators) :
    Evaluation.Persistent op.evaluate :=
  Catalog.operators_persistent op (h.operators_subset op hop)

/-- Whatever the arguments, an operator fails as an operation on values does. -/
theorem Catalog.Assembled.evaluate_raises (h : c.Assembled) (hop : op ∈ c.operators)
    (limits : Limits) (args : List Value) :
    Raises Error.IsOperational (op.evaluate limits args) :=
  (h.persistent hop limits limits (.refl limits) args).raises

theorem Catalog.Assembled.apply_raises (h : c.Assembled) (hop : op ∈ c.operators)
    (limits : Limits) (args : List Value) :
    Raises Error.IsOperational (op.apply limits args) :=
  (Operator.apply_persistent (h.persistent hop) limits limits (.refl limits) args).raises

end ReversePolish
