import ReversePolish.Measure.Families
import ReversePolish.Operator.Shaped
import ReversePolish.Proofs.Operator.Accepted
import ReversePolish.Proofs.Safe
import ReversePolish.Proofs.Value.Shape

/-! # Operators on arguments that they accept

A signature leaves an operator only arguments for which it is meant, and a unit among them is one
of the catalog. -/

namespace ReversePolish

open Operator

/-- Whether the value, if it is a unit, is one of the catalog. -/
def Value.Known (v : Value) : Prop := ∀ name, v = .unit name → (MeasureFamily.lookup? name).isSome

namespace Value

@[simp]
theorem known_scalar (s : Scalar) : (Value.scalar s).Known := by simp [Known]

@[simp]
theorem known_vector (d : Dimension) (v : RealVector d.size) : (Value.vector d v).Known := by
  simp [Known]

@[simp]
theorem known_matrix (d : Dimension) (m : SquareMatrix d.size) : (Value.matrix d m).Known := by
  simp [Known]

theorem known_ite {c : Prop} [Decidable c] {v w : Value} (hv : v.Known) (hw : w.Known) :
    (if c then v else w).Known := by
  split
  · exact hv
  · exact hw

theorem known_of_ofComponents? {xs : List Float} {v : Value} (h : ofComponents? xs = some v) :
    v.Known := by
  obtain ⟨d, w, rfl, -⟩ := ofComponents?_eq_some.mp h
  exact known_vector d w

theorem known_of_ofRows? {rows : List (List Float)} {v : Value} (h : ofRows? rows = some v) :
    v.Known := by
  obtain ⟨d, m, rfl, -⟩ := ofRows?_eq_some.mp h
  exact known_matrix d m

end Value

/-! ## By signature -/

/-- Whether the evaluation is safe for arguments of the signature. -/
def Evaluation.SafeOn (f : Evaluation) (sig : Signature) : Prop :=
  ∀ limits args, sig.Fits args → (∀ v ∈ args, Value.Known v) → Safe Value.Known (f limits args)

namespace Evaluation

variable {f : Evaluation}

theorem safeOn_scalar (h : ∀ limits s, Safe Value.Known (f limits [.scalar s])) :
    f.SafeOn [.scalar] := by
  intro limits args hfits _
  obtain ⟨a, rfl, ha⟩ := hfits.unary
  obtain ⟨s, rfl⟩ := KindSet.contains_scalar.mp ha
  exact h limits s

theorem safeOn_vector (h : ∀ limits d v, Safe Value.Known (f limits [.vector d v])) :
    f.SafeOn [.vector] := by
  intro limits args hfits _
  obtain ⟨a, rfl, ha⟩ := hfits.unary
  obtain ⟨d, v, rfl⟩ := KindSet.contains_vector.mp ha
  exact h limits d v

theorem safeOn_matrix (h : ∀ limits d m, Safe Value.Known (f limits [.matrix d m])) :
    f.SafeOn [.matrix] := by
  intro limits args hfits _
  obtain ⟨a, rfl, ha⟩ := hfits.unary
  obtain ⟨d, m, rfl⟩ := KindSet.contains_matrix.mp ha
  exact h limits d m

theorem safeOn_binary {s t : KindSet} (h : ∀ limits a b, s.contains (Value.kind a) →
    t.contains (Value.kind b) → Safe Value.Known (f limits [a, b])) : f.SafeOn [s, t] := by
  intro limits args hfits _
  obtain ⟨a, b, rfl, ha, hb⟩ := hfits.binary
  exact h limits a b ha hb

theorem safeOn_scalars (h : ∀ limits s t, Safe Value.Known (f limits [.scalar s, .scalar t])) :
    f.SafeOn [.scalar, .scalar] := by
  refine safeOn_binary fun limits a b ha hb => ?_
  obtain ⟨s, rfl⟩ := KindSet.contains_scalar.mp ha
  obtain ⟨t, rfl⟩ := KindSet.contains_scalar.mp hb
  exact h limits s t

end Evaluation

/-! ## Vectors and matrices -/

namespace Value

variable {v : Value}

theorem isShaped_of_vector (h : KindSet.vector.contains v.kind) : v.IsShaped :=
  .inl (KindSet.contains_vector.mp h)

theorem isShaped_of_matrix (h : KindSet.matrix.contains v.kind) : v.IsShaped :=
  .inr (KindSet.contains_matrix.mp h)

theorem IsShaped.isScalar_eq (h : v.IsShaped) : v.isScalar = false := by
  obtain ⟨d, w, rfl⟩ | ⟨d, m, rfl⟩ := h
  · rfl
  · rfl

end Value

namespace Operator

variable {op : String}

theorem mismatched_safe (a b : Value) : Safe Value.Known (mismatched op a b) := rfl

theorem addShaped_safe (a b : Value) : Safe Value.Known (addShaped op a b) := by
  unfold addShaped
  split
  · split
    · exact Value.known_vector _ _
    · exact mismatched_safe _ _
  · split
    · exact Value.known_matrix _ _
    · exact mismatched_safe _ _
  · exact mismatched_safe _ _

theorem negShaped_safe {a : Value} (h : a.IsShaped) : Safe Value.Known (negShaped a) := by
  obtain ⟨d, v, rfl⟩ | ⟨d, m, rfl⟩ := h
  · exact Value.known_vector _ _
  · exact Value.known_matrix _ _

theorem subShaped_safe (a : Value) {b : Value} (h : b.IsShaped) :
    Safe Value.Known (subShaped op a b) :=
  (negShaped_safe h).bind fun _ _ => addShaped_safe a _

theorem scaleShaped_safe {a : Value} (h : a.IsShaped) (k : Float) :
    Safe Value.Known (scaleShaped op a k) := by
  obtain ⟨d, v, rfl⟩ | ⟨d, m, rfl⟩ := h
  · exact Value.known_vector _ _
  · exact Value.known_matrix _ _

theorem not_isShaped_scalar (s : Scalar) : ¬ (Value.scalar s).IsShaped := by
  intro h
  cases h.isScalar_eq

theorem mulShaped_safe {a b : Value} (h : a.IsShaped ∨ b.IsShaped) :
    Safe Value.Known (mulShaped op a b) := by
  unfold mulShaped
  split
  · exact scaleShaped_safe (h.resolve_left (not_isShaped_scalar _)) _
  · exact scaleShaped_safe (h.resolve_right (not_isShaped_scalar _)) _
  · split
    · exact Value.known_matrix _ _
    · exact mismatched_safe _ _
  · split
    · exact Value.known_vector _ _
    · exact mismatched_safe _ _
  · exact mismatched_safe _ _

theorem scalarPair_safe (s t : Scalar) :
    Safe (fun _ => True) (scalarPair op (.scalar s) (.scalar t)) := trivial

end Operator

end ReversePolish
