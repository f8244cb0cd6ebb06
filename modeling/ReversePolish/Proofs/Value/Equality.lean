import ReversePolish.Proofs.Value.Exact
import ReversePolish.Proofs.Value.Widening

/-! # Equality of values

Values without NaN are equal where they stand for the same numbers, entry by entry, and a scalar is
also equal to the real that it is rounded to. Such a real may be equal to integers that differ: but
for these, equality of values is an equivalence. -/

namespace ReversePolish

open Binary64

namespace Value

def hasNaN : Value → Bool
  | scalar s => s.isNaN
  | vector _ v => v.toList.any Float.isNaN
  | matrix _ m => m.toRows.any (·.any Float.isNaN)
  | unit _ => false

/-- The values of one shape that stand for the same numbers. -/
inductive Same : Value → Value → Prop where
  | scalar {s t : Scalar} (h : s.exact = t.exact) : Same (scalar s) (scalar t)
  | vector {d e : Dimension} {v : RealVector d.size} {w : RealVector e.size}
      (h : v.toList.map value = w.toList.map value) : Same (vector d v) (vector e w)
  | matrix {d e : Dimension} {m : SquareMatrix d.size} {n : SquareMatrix e.size}
      (h : m.toRows.map (·.map value) = n.toRows.map (·.map value)) :
      Same (matrix d m) (matrix e n)
  | unit (name : String) : Same (unit name) (unit name)

/-- An integer and the real that it is rounded to, in either order. -/
inductive Blurs : Value → Value → Prop where
  | scalar {s t : Scalar} (h : s.Blurs t) : Blurs (scalar s) (scalar t)

/-! ## Entries -/

theorem beq_reals_iff {xs ys : List Float} (hxs : ¬ xs.any Float.isNaN) (hys : ¬ ys.any Float.isNaN) :
    xs == ys ↔ xs.map value = ys.map value := by
  induction xs generalizing ys with
  | nil => cases ys <;> simp
  | cons x xs ih =>
    cases ys with
    | nil => simp
    | cons y ys =>
      rw [List.any_cons, Bool.or_eq_true, not_or] at hxs hys
      rw [List.cons_beq_cons, Bool.and_eq_true, beq_iff hxs.1 hys.1, ih hxs.2 hys.2, List.map_cons,
        List.map_cons, List.cons.injEq]

theorem beq_rows_iff {rs ss : List (List Float)} (hrs : ¬ rs.any (·.any Float.isNaN))
    (hss : ¬ ss.any (·.any Float.isNaN)) :
    rs == ss ↔ rs.map (·.map value) = ss.map (·.map value) := by
  induction rs generalizing ss with
  | nil => cases ss <;> simp
  | cons r rs ih =>
    cases ss with
    | nil => simp
    | cons s ss =>
      rw [List.any_cons, Bool.or_eq_true, not_or] at hrs hss
      rw [List.cons_beq_cons, Bool.and_eq_true, beq_reals_iff hrs.1 hss.1, ih hrs.2 hss.2,
        List.map_cons, List.map_cons, List.cons.injEq]

/-! ## Values -/

variable {a b c : Value}

theorem Same.refl (a : Value) : Same a a := by
  cases a with
  | scalar s => exact .scalar rfl
  | vector d v => exact .vector rfl
  | matrix d m => exact .matrix rfl
  | unit name => exact .unit name

theorem Same.symm (h : Same a b) : Same b a := by
  cases h with
  | scalar h => exact .scalar h.symm
  | vector h => exact .vector h.symm
  | matrix h => exact .matrix h.symm
  | unit name => exact .unit name

theorem Blurs.symm (h : Blurs a b) : Blurs b a := by
  cases h with
  | scalar h => exact .scalar (Or.symm h)

theorem Same.trans (h : Same a b) (h' : Same b c) : Same a c := by
  cases h with
  | scalar h => cases h' with | scalar h' => exact .scalar (h.trans h')
  | vector h => cases h' with | vector h' => exact .vector (h.trans h')
  | matrix h => cases h' with | matrix h' => exact .matrix (h.trans h')
  | unit name => exact h'

section Shapes

variable {s t : Scalar} {d e : Dimension} {v : RealVector d.size} {w : RealVector e.size}
  {m : SquareMatrix d.size} {n : SquareMatrix e.size}

theorem same_scalar_iff : Same (scalar s) (scalar t) ↔ s.exact = t.exact :=
  ⟨fun | .scalar h => h, .scalar⟩

theorem same_vector_iff :
    Same (vector d v) (vector e w) ↔ v.toList.map value = w.toList.map value :=
  ⟨fun | .vector h => h, .vector⟩

theorem same_matrix_iff : Same (matrix d m) (matrix e n) ↔
    m.toRows.map (·.map value) = n.toRows.map (·.map value) :=
  ⟨fun | .matrix h => h, .matrix⟩

theorem blurs_scalar_iff : Blurs (scalar s) (scalar t) ↔ s.Blurs t :=
  ⟨fun | .scalar h => h, .scalar⟩

end Shapes

/-- Values are equal where they stand for the same, and where promotion blurs them. -/
theorem beq_iff_same_or_blurs (ha : ¬ a.hasNaN) (hb : ¬ b.hasNaN) :
    a == b ↔ Same a b ∨ Blurs a b := by
  have hequal : (a == b) = equal a b := rfl
  rw [hequal]
  cases a with
  | scalar s =>
    cases b with
    | scalar t =>
      rw [same_scalar_iff, blurs_scalar_iff]
      exact Scalar.beq_iff_exact ha hb
    | _ => exact iff_of_false Bool.false_ne_true (by rintro (h | h) <;> cases h)
  | vector d v =>
    cases b with
    | vector e w =>
      rw [same_vector_iff, or_iff_left (by rintro ⟨⟩)]
      exact beq_reals_iff ha hb
    | _ => exact iff_of_false Bool.false_ne_true (by rintro (h | h) <;> cases h)
  | matrix d m =>
    cases b with
    | matrix e n =>
      rw [same_matrix_iff, or_iff_left (by rintro ⟨⟩)]
      exact beq_rows_iff ha hb
    | _ => exact iff_of_false Bool.false_ne_true (by rintro (h | h) <;> cases h)
  | unit name =>
    cases b with
    | unit name' =>
      rw [or_iff_left (by rintro ⟨⟩)]
      refine beq_iff_eq.trans ⟨?_, fun | .unit _ => rfl⟩
      rintro rfl
      exact .unit name
    | _ => exact iff_of_false Bool.false_ne_true (by rintro (h | h) <;> cases h)

theorem Same.isScalar_eq (h : Same a b) : a.isScalar = b.isScalar := by
  cases h <;> rfl

theorem Blurs.isScalar (h : Blurs a b) : a.isScalar ∧ b.isScalar := by
  cases h
  exact ⟨rfl, rfl⟩

theorem isScalar_of_beq (ha : ¬ a.hasNaN) (hb : ¬ b.hasNaN) (h : a == b) :
    a.isScalar = b.isScalar := by
  rcases (beq_iff_same_or_blurs ha hb).mp h with h | h
  · exact h.isScalar_eq
  · rw [h.isScalar.1, h.isScalar.2]

theorem same_of_beq (ha : ¬ a.hasNaN) (hb : ¬ b.hasNaN) (hscalar : ¬ a.isScalar) (h : a == b) :
    Same a b :=
  ((beq_iff_same_or_blurs ha hb).mp h).resolve_right fun h => hscalar h.isScalar.1

theorem integer?_of_not_isScalar (h : ¬ a.isScalar) : a.integer? = none := by
  cases a with
  | scalar s => exact absurd rfl h
  | _ => rfl

/-- Equality is an equivalence but for integers that one real blurs. -/
theorem equality_up_to_rounding (ha : ¬ a.hasNaN) (hb : ¬ b.hasNaN) (hc : ¬ c.hasNaN) :
    a == a ∧ (a == b) = (b == a) ∧ (a == b ↔ Same a b ∨ Blurs a b) ∧
      (a == b → b == c → (a == c ↔
        ¬ ∃ m n x, a.integer? = some m ∧ c.integer? = some n ∧ m ≠ n ∧ b = real x)) := by
  have hab := beq_iff_same_or_blurs ha hb
  refine ⟨(beq_iff_same_or_blurs ha ha).mpr (.inl (.refl a)), ?_, hab, fun h h' => ?_⟩
  · rw [Bool.eq_iff_iff, hab, beq_iff_same_or_blurs hb ha]
    exact or_congr ⟨.symm, .symm⟩ ⟨.symm, .symm⟩
  · by_cases hscalar : a.isScalar
    · have hscalar' : b.isScalar := (isScalar_of_beq ha hb h).symm.trans hscalar
      obtain ⟨s, rfl⟩ := exists_scalar_of_isScalar hscalar
      obtain ⟨t, rfl⟩ := exists_scalar_of_isScalar hscalar'
      obtain ⟨u, rfl⟩ := exists_scalar_of_isScalar ((isScalar_of_beq hb hc h').symm.trans hscalar')
      simp only [Value.scalar.injEq]
      exact Scalar.beq_iff_of_beq ha hb hc h h'
    · have hsame := same_of_beq ha hb hscalar h
      have hsame' := same_of_beq hb hc (hsame.isScalar_eq ▸ hscalar) h'
      refine iff_of_true ((beq_iff_same_or_blurs ha hc).mpr (.inl (hsame.trans hsame'))) ?_
      rintro ⟨m, n, x, hm, -⟩
      rw [integer?_of_not_isScalar hscalar] at hm
      cases hm

/-- Next to `2 ^ 53` there is an integer that is rounded to it. -/
theorem equality_up_to_rounding_next_to_power :
    (¬ (bigInt (2 ^ 53)).hasNaN ∧ ¬ (real 9007199254740992).hasNaN ∧
      ¬ (int 9007199254740993).hasNaN) ∧
    bigInt (2 ^ 53) == real 9007199254740992 ∧ real 9007199254740992 == int 9007199254740993 ∧
    (bigInt (2 ^ 53) == int 9007199254740993 ↔ ¬ ∃ m n x, (bigInt (2 ^ 53)).integer? = some m ∧
      (int 9007199254740993).integer? = some n ∧ m ≠ n ∧ real 9007199254740992 = real x) := by
  have hnumbers : ¬ (bigInt (2 ^ 53)).hasNaN ∧ ¬ (real 9007199254740992).hasNaN ∧
      ¬ (int 9007199254740993).hasNaN := by decide +kernel
  have hleft : bigInt (2 ^ 53) == real 9007199254740992 := by decide +kernel
  have hright : real 9007199254740992 == int 9007199254740993 := by decide +kernel
  exact ⟨hnumbers, hleft, hright, (equality_up_to_rounding hnumbers.1 hnumbers.2.1
    hnumbers.2.2).2.2.2 hleft hright⟩

theorem equality_not_transitive : ¬ ∀ a b c : Value, ¬ a.hasNaN → ¬ b.hasNaN → ¬ c.hasNaN →
    a == b → b == c → a == c := by
  intro h
  have htransitive := h (int 9007199254740992) (real 9007199254740992) (int 9007199254740993)
    (by decide +kernel) (by decide +kernel) (by decide +kernel) (by decide +kernel)
    (by decide +kernel)
  revert htransitive
  decide +kernel

end Value

end ReversePolish
