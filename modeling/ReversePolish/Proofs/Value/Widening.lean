import ReversePolish.Proofs.Value.Word
import ReversePolish.Value.Basic

/-! # The wider representation of integers

Every machine integer is also an integer of any size. Widening does not change what a value is,
apart from its kind. -/

namespace ReversePolish

namespace Scalar

/-- The same scalar, with machine integers as integers of any size. -/
def widened : Scalar → Scalar
  | .int n => .bigInt n.toInt
  | .bigInt n => .bigInt n
  | .real x => .real x

@[simp]
theorem integer?_widened (s : Scalar) : s.widened.integer? = s.integer? := by
  cases s <;> rfl

@[simp]
theorem toReal_widened (s : Scalar) : s.widened.toReal = s.toReal := by
  cases s <;> rfl

@[simp]
theorem isZero_widened (s : Scalar) : s.widened.isZero = s.isZero := by
  cases s with
  | int n =>
      have hzero : n.toInt = 0 ↔ n = 0 := by rw [← Int64.toInt_zero, Int64.toInt_inj]
      exact decide_eq_decide.mpr hzero
  | bigInt n => rfl
  | real x => rfl

/-- The same pair, with machine integers as integers of any size. -/
def Pair.widened : Pair → Pair
  | .int a b => .bigInt a.toInt b.toInt
  | .bigInt a b => .bigInt a b
  | .real x y => .real x y

theorem promote_widened (s t : Scalar) : promote s.widened t.widened = (promote s t).widened := by
  cases s <;> cases t <;> rfl

theorem Pair.compare_widened (p : Pair) : p.widened.compare = p.compare := by
  cases p <;> rfl

end Scalar

namespace Value

/-- The same value, with machine integers as integers of any size. -/
def widened : Value → Value
  | .scalar s => .scalar s.widened
  | other => other

@[simp]
theorem isScalar_widened (v : Value) : v.widened.isScalar = v.isScalar := by
  cases v <;> rfl

@[simp]
theorem isZeroScalar_widened (v : Value) : v.widened.isZeroScalar = v.isZeroScalar := by
  cases v with
  | scalar s => exact s.isZero_widened
  | _ => rfl

@[simp]
theorem integer?_widened (v : Value) : v.widened.integer? = v.integer? := by
  cases v with
  | scalar s => exact s.integer?_widened
  | _ => rfl

@[simp]
theorem components?_widened (v : Value) : v.widened.components? = v.components? := by
  cases v <;> rfl

theorem exists_scalar_of_isScalar {v : Value} (h : v.isScalar) : ∃ s, v = .scalar s := by
  cases v with
  | scalar s => exact ⟨s, rfl⟩
  | _ => cases h

theorem widened_of_not_scalar {v : Value} (h : v.isScalar = false) : v.widened = v := by
  cases v with
  | scalar s => cases h
  | _ => rfl

/-! ## Agreement -/

/-- The same value, or integers of one value in whatever representation. -/
def Agrees (v w : Value) : Prop := v = w ∨ ∃ n, v.integer? = some n ∧ w.integer? = some n

theorem widened_of_integer? {v : Value} {n : ℤ} (h : v.integer? = some n) :
    v.widened = .bigInt n := by
  cases v with
  | scalar s =>
      cases s with
      | int m => exact congrArg Value.bigInt (Option.some.inj h)
      | bigInt m => exact congrArg Value.bigInt (Option.some.inj h)
      | real x => cases h
  | _ => cases h

theorem agrees_widened (v : Value) : v.Agrees v.widened := by
  cases v with
  | scalar s =>
      cases s with
      | int n => exact .inr ⟨n.toInt, rfl, rfl⟩
      | _ => exact .inl rfl
  | _ => exact .inl rfl

namespace Agrees

theorem refl (v : Value) : v.Agrees v := .inl rfl

theorem symm {v w : Value} (h : v.Agrees w) : w.Agrees v := by
  rcases h with rfl | ⟨n, hv, hw⟩
  · exact refl _
  · exact .inr ⟨n, hw, hv⟩

theorem trans {u v w : Value} (h : u.Agrees v) (h' : v.Agrees w) : u.Agrees w := by
  rcases h with rfl | ⟨n, hu, hv⟩
  · exact h'
  · rcases h' with rfl | ⟨m, hv', hw⟩
    · exact .inr ⟨n, hu, hv⟩
    · obtain rfl : n = m := Option.some.inj (hv.symm.trans hv')
      exact .inr ⟨n, hu, hw⟩

theorem widened_eq {v w : Value} (h : v.Agrees w) : v.widened = w.widened := by
  rcases h with rfl | ⟨n, hv, hw⟩
  · rfl
  · rw [widened_of_integer? hv, widened_of_integer? hw]

end Agrees

end Value

end ReversePolish
