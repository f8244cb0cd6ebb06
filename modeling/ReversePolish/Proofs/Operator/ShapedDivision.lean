import ReversePolish.Proofs.Binary64.Reciprocal
import ReversePolish.Proofs.Operator.Scalars
import ReversePolish.Proofs.Value.Exact
import ReversePolish.Proofs.Value.Shape

/-! # Division of vectors and matrices

Each entry is multiplied by the reciprocal of the divisor. Where the reciprocal adds no error that is
the quotient of the entry, and elsewhere, unless the reciprocal is infinite, it is close to it. -/

namespace ReversePolish

open Operator Binary64

/-! ## Entries -/

theorem SquareMatrix.flatten_toRows_scale {n : ℕ} (m : SquareMatrix n) (k : Float) :
    (m.scale k).toRows.flatten = m.toRows.flatten.map (· * k) := by
  simp only [toRows, scale, Vector.toList_map, List.map_map, List.map_flatten]
  congr 2
  funext row
  exact row.toList_scale k

/-- Every entry is scaled by itself. -/
theorem Value.exists_scaleShaped {v : Value} (hv : v.IsShaped) (op : String) (k : Float) :
    ∃ result, scaleShaped op v k = .ok result ∧ result.kind = v.kind ∧
      result.entries = v.entries.map (· * k) := by
  rcases hv with ⟨d, w, rfl⟩ | ⟨d, m, rfl⟩
  · exact ⟨_, rfl, rfl, w.toList_scale k⟩
  · exact ⟨_, rfl, rfl, m.flatten_toRows_scale k⟩

namespace Arithmetic

variable {limits : Limits} {v : Value} {k : Scalar}

/-! ## Evaluations -/

theorem apply_div (limits : Limits) (hv : v.IsShaped) (k : Scalar) :
    operators[3].apply limits [v, .scalar k] = divValues limits v (.scalar k) := by
  have hk := KindSet.contains_scalar.mpr ⟨k, rfl⟩
  rcases hv with hvector | hmatrix
  · have hfits : Signature.Fits [.vector, .scalar] [v, .scalar k] :=
      .cons (KindSet.contains_vector.mpr hvector) (.cons hk .nil)
    rw [apply_of_fits (List.mem_cons_of_mem _ List.mem_cons_self) limits hfits]
    rfl
  · have hfits : Signature.Fits [.matrix, .scalar] [v, .scalar k] :=
      .cons (KindSet.contains_matrix.mpr hmatrix) (.cons hk .nil)
    rw [apply_of_fits (List.mem_cons_of_mem _ (List.mem_cons_of_mem _ List.mem_cons_self)) limits
      hfits]
    rfl

theorem mul_reals (limits : Limits) (x y : Float) :
    operators[2].apply limits [.real x, .real y] = .ok (.real (x * y)) := by
  rw [apply_two List.mem_cons_self]
  rfl

theorem checkDivisor_scalar (hk : ¬ k.isZero) : checkDivisor (.scalar k) = .ok () :=
  if_neg hk

theorem div_real (hk : ¬ k.isZero) (limits : Limits) (x : Float) :
    operators[3].apply limits [.real x, .scalar k] = .ok (.real (x / k.toReal)) := by
  have heval : operators[3].evaluate limits [.real x, .scalar k] =
      divValues limits (.real x) (.scalar k) := rfl
  rw [apply_two List.mem_cons_self, heval, divValues, checkDivisor_scalar hk]
  rfl

theorem divValues_of_isZero (hk : k.isZero) :
    divValues limits v (.scalar k) = .error .divisionByZero := by
  rw [divValues, checkDivisor, Value.isZeroScalar, if_pos hk]
  rfl

theorem divValues_shaped (hv : v.IsShaped) (hk : ¬ k.isZero) :
    divValues limits v (.scalar k) = scaleShaped "div" v (1 / k.toReal) := by
  have hscalar : v.isScalar = false := by
    rcases hv with ⟨d, w, rfl⟩ | ⟨d, m, rfl⟩ <;> rfl
  rw [divValues, checkDivisor_scalar hk, hscalar]
  rfl

/-! ## Entries of the result -/

variable {catalog : Catalog}

/-- Division of a vector or matrix multiplies each entry by the reciprocal of the divisor, which is
the quotient of the entry where an argument is infinite or NaN, and approximates it elsewhere unless
the reciprocal is infinite. -/
theorem shaped_division_by_reciprocal (hcatalog : Catalog.standard = .ok catalog)
    (limits : Limits) :
    ∃ div mul, catalog.find? "div" = some div ∧ catalog.find? "mul" = some mul ∧
      ∀ (v : Value) (k : Scalar), v.IsShaped →
        (k.isZero → div.apply limits [v, .scalar k] = .error .divisionByZero) ∧
        (¬ k.isZero → ∃ result r, div.apply limits [v, .scalar k] = .ok result ∧
          div.apply limits [.real 1, .scalar k] = .ok (.real r) ∧ result.kind = v.kind ∧
          List.Forall₂ (fun x p => mul.apply limits [.real x, .real r] = .ok (.real p) ∧
            ∃ q, div.apply limits [.real x, .scalar k] = .ok (.real q) ∧
              (¬ isFinite x ∨ ¬ isFinite k.toReal → p = q) ∧
              (isFinite x → isFinite k.toReal → magnitudeBits r ≠ infinityBits →
                Approximates x k.toReal r p q))
            v.entries result.entries) := by
  refine ⟨operators[3], operators[2], find?_operator hcatalog 3 (by decide),
    find?_operator hcatalog 2 (by decide), fun v k hv => ?_⟩
  rw [apply_div limits hv]
  refine ⟨divValues_of_isZero, fun hk => ?_⟩
  obtain ⟨result, hresult, hkind, hentries⟩ :=
    Value.exists_scaleShaped hv "div" (1 / k.toReal)
  refine ⟨result, 1 / k.toReal, (divValues_shaped hv hk).trans hresult, div_real hk limits 1,
    hkind, ?_⟩
  rw [hentries, List.forall₂_map_right_iff, List.forall₂_same]
  exact fun x _ => ⟨mul_reals limits x _, x / k.toReal, div_real hk limits x,
    mul_reciprocal_of_not_isFinite, approximates⟩

/-- Two thirds and a third, in a vector of two. -/
theorem shaped_division_by_reciprocal_of_thirds :
    let catalog := Catalog.standard.toOption.getD .empty
    let limits : Limits := ⟨.onOverflow, 65536⟩
    let v : Value := .vector .two #v[2, 1]
    let k : Scalar := .int 3
    v.IsShaped ∧ ¬ k.isZero ∧ ∃ div, catalog.find? "div" = some div ∧
      ∃ result r, div.apply limits [v, .scalar k] = .ok result ∧
        div.apply limits [.real 1, .scalar k] = .ok (.real r) ∧
        List.Forall₂ (fun x p => ∃ q, div.apply limits [.real x, .scalar k] = .ok (.real q) ∧
          Approximates x k.toReal r p q) [2, 1] result.entries := by
  intro catalog limits v k
  have hv : v.IsShaped := .inl ⟨_, _, rfl⟩
  have hk : ¬ k.isZero := by decide +kernel
  obtain ⟨div, mul, hdiv, -, hshaped⟩ := shaped_division_by_reciprocal Catalog.standard_eq limits
  obtain rfl : operators[3] = div :=
    Option.some.inj ((find?_operator Catalog.standard_eq 3 (by decide)).symm.trans hdiv)
  obtain ⟨result, r, hresult, hr, -, hentries⟩ := (hshaped v k hv).2 hk
  obtain rfl : 1 / k.toReal = r := by
    cases (div_real hk limits 1).symm.trans hr
    rfl
  refine ⟨hv, hk, operators[3], hdiv, result, _, hresult, hr, ?_⟩
  have hdivisor : isFinite k.toReal := by decide +kernel
  have hreciprocal : magnitudeBits (1 / k.toReal) ≠ infinityBits := by decide +kernel
  have hlist : v.entries = [2, 1] := rfl
  rw [hlist] at hentries
  generalize result.entries = ps at hentries ⊢
  obtain ⟨_, _, ⟨-, q, hq, -, hnear⟩, hrest, rfl⟩ := List.forall₂_cons_left_iff.mp hentries
  obtain ⟨_, _, ⟨-, q', hq', -, hnear'⟩, hnil, rfl⟩ := List.forall₂_cons_left_iff.mp hrest
  obtain rfl := List.forall₂_nil_left_iff.mp hnil
  exact .cons ⟨q, hq, hnear (by decide +kernel) hdivisor hreciprocal⟩
    (.cons ⟨q', hq', hnear' (by decide +kernel) hdivisor hreciprocal⟩ .nil)

/-- The first component is less than one, and the quotient of two equal numbers is not. Where the
reciprocal is infinite, a component of zero even comes to NaN. -/
theorem component_not_quotient :
    let catalog := Catalog.standard.toOption.getD .empty
    let limits : Limits := ⟨.onOverflow, 65536⟩
    let least : Scalar := .real (Float.ofBits 1)
    ∃ div, catalog.find? "div" = some div ∧
      (∃ result p, div.apply limits [.vector .two #v[49, 1], .int 49] = .ok result ∧
        result.entries.head? = some p ∧ div.apply limits [.real 49, .int 49] = .ok (.real 1) ∧
        p ≠ 1) ∧
      ∃ result p q, div.apply limits [.vector .two #v[0, 1], .scalar least] = .ok result ∧
        result.entries.head? = some p ∧ div.apply limits [.real 0, .scalar least] = .ok (.real q) ∧
        p.isNaN ∧ ¬ q.isNaN := by
  intro catalog limits least
  have hone : operators[3].apply limits [.real 49, .int 49] = .ok (.real 1) := by
    rw [div_real (k := .int 49) (by decide +kernel) limits]
    have hquotient : (49 : Float) / (Scalar.int 49).toReal = 1 := by
      rw [← Float.toBits_inj]
      decide +kernel
    rw [hquotient]
  have hless : (49 : Float) * (1 / (Scalar.int 49).toReal) ≠ 1 := fun heq => by
    have hbits := congrArg Float.toBits heq
    revert hbits
    decide +kernel
  have hhead (x y k : Float) :
      (Value.vector .two (RealVector.scale #v[x, y] k)).entries.head? = some (x * k) :=
    congrArg List.head? (RealVector.toList_scale #v[x, y] k)
  refine ⟨operators[3], find?_operator Catalog.standard_eq 3 (by decide),
    ⟨_, _, rfl, hhead .., hone, hless⟩,
    _, _, _, rfl, hhead .., rfl, by decide +kernel, by decide +kernel⟩

end Arithmetic

end ReversePolish
