import ReversePolish.Proofs.Catalog.Assembled
import ReversePolish.Proofs.Operator.Arithmetic
import ReversePolish.Proofs.Operator.Functions

/-! # The standard operators and the representations of integers -/

namespace ReversePolish

/-! ## The evaluations of each library -/

theorem Arithmetic.operators_rankFree :
    ∀ op ∈ Arithmetic.operators, Evaluation.RankFree op.evaluate := by
  simp only [operators, List.forall_mem_cons]
  exact ⟨add_rankFree, sub_rankFree, mul_rankFree, div_rankFree, floorDiv_rankFree,
    floorMod_rankFree, neg_rankFree, abs_rankFree, pow_rankFree, square_rankFree, sqrt_rankFree,
    inv_rankFree, min_rankFree, max_rankFree, sign_rankFree, List.forall_mem_nil _⟩

theorem Elementary.operators_rankFree :
    ∀ op ∈ Elementary.operators, Evaluation.RankFree op.evaluate := by
  simp only [operators, List.forall_mem_cons]
  exact ⟨real_rankFree, real_rankFree, real_rankFree, realWhere_rankFree, realWhere_rankFree,
    real_rankFree, angle_rankFree, real_rankFree, realWhere_rankFree, realWhere_rankFree,
    rounding_rankFree, rounding_rankFree, rounding_rankFree, rounding_rankFree,
    List.forall_mem_nil _⟩

theorem LinearAlgebra.operators_rankFree :
    ∀ op ∈ LinearAlgebra.operators, Evaluation.RankFree op.evaluate := by
  simp only [operators, List.forall_mem_cons]
  exact ⟨composeVector_rankFree, composeVector_rankFree, composeVector_rankFree,
    composeMatrix_rankFree, composeMatrix_rankFree, composeMatrix_rankFree, dot_rankFree,
    cross_rankFree, norm_rankFree, normalize_rankFree, transpose_rankFree, determinant_rankFree,
    inverse_rankFree, List.forall_mem_nil _⟩

theorem Conversion.operators_rankFree :
    ∀ op ∈ Conversion.operators, Evaluation.RankFree op.evaluate := by
  simp only [operators, List.forall_mem_cons]
  exact ⟨toReal_rankFree, toBigInt_rankFree, toInt_rankFree, List.forall_mem_nil _⟩

theorem Constants.operators_rankFree :
    ∀ op ∈ Constants.operators, Evaluation.RankFree op.evaluate := by
  simp only [operators, List.forall_mem_cons]
  exact ⟨constant_rankFree, constant_rankFree, List.forall_mem_nil _⟩

theorem UnitConversion.operators_rankFree :
    ∀ op ∈ UnitConversion.operators, Evaluation.RankFree op.evaluate := by
  simp only [operators, List.forall_mem_cons]
  exact ⟨convert_rankFree, toBaseUnit_rankFree, List.forall_mem_nil _⟩

/-! ## The whole catalog -/

namespace Catalog

theorem standard_eq : standard = .ok (standard.toOption.getD .empty) := rfl

theorem operators_of_standard {catalog : Catalog} (h : standard = .ok catalog) :
    catalog.operators = Library.standard.flatMap Library.operators := by
  have hoperators : standard.map Catalog.operators =
      .ok (Library.standard.flatMap Library.operators) := rfl
  rw [h] at hoperators
  exact Except.ok.inj hoperators

/-- Every standard operator is found under its name. -/
theorem find?_standard {catalog : Catalog} (h : standard = .ok catalog) {op : Operator}
    (hop : op ∈ Library.standard.flatMap Library.operators) : catalog.find? op.name = some op := by
  have hassembled : catalog.Assembled := assembled_of_ofLibraries (fun _ hlib => hlib) h
  rw [← operators_of_standard h] at hop
  exact hassembled.find?_name hop

instance (s : KindSet) : Decidable s.RankFree :=
  inferInstanceAs (Decidable (s.contains .int = s.contains .bigInt))

theorem signatures_rankFree : ∀ op ∈ Library.standard.flatMap Library.operators,
    ∀ sig ∈ op.signatures, ∀ s ∈ sig, s.RankFree := by
  decide +kernel

theorem operators_rankFree :
    ∀ op ∈ Library.standard.flatMap Library.operators, op.RankFree := by
  intro op hop
  have hevaluate := forall_standard Arithmetic.operators_rankFree Elementary.operators_rankFree
    LinearAlgebra.operators_rankFree Conversion.operators_rankFree Constants.operators_rankFree
    UnitConversion.operators_rankFree
  exact ⟨signatures_rankFree op hop, hevaluate op hop⟩

/-- No standard operator tells machine integers from integers of any size, as long as overflow
takes the one to the other: for arguments that agree, it fails with errors of one kind or has
results that agree. -/
theorem apply_alike_of_agrees {catalog : Catalog} (hcatalog : standard = .ok catalog)
    {op : Operator} (hop : op ∈ catalog.operators) (bits : ℕ) {args args' : List Value}
    (h : List.Forall₂ Value.Agrees args args') :
    Alike Value.Agrees (op.apply ⟨.onOverflow, bits⟩ args)
      (op.apply ⟨.onOverflow, bits⟩ args') := by
  rw [operators_of_standard hcatalog] at hop
  exact (operators_rankFree op hop).apply.alike bits h

/-- The one quotient of machine integers that is none, with the divisor in either
representation. -/
theorem apply_alike_on_overflow :
    let op := Arithmetic.operators[4]
    let least : Value := .int Int64.minValue
    op.name = "idiv" ∧ op.apply ⟨.onOverflow, 64⟩ [least, .int (-1)] = .ok (.bigInt (2 ^ 63)) ∧
      Alike Value.Agrees (op.apply ⟨.onOverflow, 64⟩ [least, .int (-1)])
        (op.apply ⟨.onOverflow, 64⟩ [least, .bigInt (-1)]) :=
  ⟨rfl, rfl, apply_alike_of_agrees standard_eq
    (operators_of_standard standard_eq ▸
      List.mem_flatMap_of_mem List.mem_cons_self (List.getElem_mem _)) 64
    (.cons (.refl _) (.cons (.inr ⟨-1, rfl, rfl⟩) .nil))⟩

end Catalog

end ReversePolish
