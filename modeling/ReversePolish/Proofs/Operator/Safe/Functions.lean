import ReversePolish.Operator.Constants
import ReversePolish.Operator.Conversion
import ReversePolish.Operator.Elementary
import ReversePolish.Operator.Linear
import ReversePolish.Operator.Units
import ReversePolish.Proofs.Measure.Families
import ReversePolish.Proofs.Operator.Safe.Basic

/-! # Functions of reals, vectors, matrices and units on arguments that they accept -/

namespace ReversePolish

open Operator

/-! ## Functions of reals -/

namespace Elementary

theorem real_safe {op : String} {f : Float → Float} : Evaluation.SafeOn (real op f) [.scalar] :=
  Evaluation.safeOn_scalar fun _ _ => Value.known_scalar _

theorem realWhere_safe {op : String} {defined : Float → Bool} {reason : DomainReason}
    {f : Float → Float} (hreason : ∀ name, reason ≠ .unknownUnit name) :
    Evaluation.SafeOn (realWhere op defined reason f) [.scalar] := by
  refine Evaluation.safeOn_scalar fun limits s => Safe.ite (Value.known_scalar _) ?_
  cases reason with
  | unknownUnit name => exact absurd rfl (hreason name)
  | _ => rfl

theorem angle_safe : Evaluation.SafeOn angle [.scalar, .scalar] :=
  Evaluation.safeOn_scalars fun _ _ _ => Value.known_scalar _

theorem rounding_safe {op : String} {r : Rounding} :
    Evaluation.SafeOn (rounding op r) [.scalar] := by
  refine Evaluation.safeOn_scalar fun limits s => ?_
  cases s with
  | int n => exact Value.known_scalar _
  | bigInt n => exact Value.known_scalar _
  | real x => exact Value.known_scalar _

end Elementary

/-! ## Conversions and constants -/

namespace Conversion

theorem toReal_safe : Evaluation.SafeOn toReal [.scalar] :=
  Evaluation.safeOn_scalar fun _ _ => Value.known_scalar _

theorem toBigInt_safe : Evaluation.SafeOn toBigInt [.scalar] := by
  refine Evaluation.safeOn_scalar fun limits s => ?_
  cases s with
  | int n => exact Value.known_scalar _
  | bigInt n => exact Value.known_scalar _
  | real x => exact Safe.ite (Value.known_scalar _) rfl

theorem toWord_safe (n : Int) : Safe Value.Known (toWord n) := by
  unfold toWord
  split
  · exact Value.known_scalar _
  · rfl

theorem toInt_safe : Evaluation.SafeOn toInt [.scalar] := by
  refine Evaluation.safeOn_scalar fun limits s => ?_
  cases s with
  | int n => exact Value.known_scalar _
  | bigInt n => exact toWord_safe n
  | real x => exact Safe.ite (toWord_safe _) rfl

end Conversion

theorem Constants.constant_safe {x : Float} : Evaluation.SafeOn (constant x) [] :=
  fun _ _ _ _ => Value.known_scalar _

/-! ## Linear algebra -/

namespace LinearAlgebra

theorem ofComponents?_of_length {xs : List Float} {d : Dimension} (h : xs.length = d.size) :
    ∃ v, Value.ofComponents? xs = some (.vector d v) := by
  have hd : Dimension.ofSize? d.size = some d := by cases d <;> rfl
  have hv : RealVector.ofList? d.size xs = some ⟨xs.toArray, by simp [h]⟩ := by
    rw [RealVector.ofList?, dif_pos h]
  exact ⟨⟨xs.toArray, by simp [h]⟩, by simp [Value.ofComponents?, h, hd, hv]⟩

theorem composeVector_safe {d : Dimension} : Evaluation.SafeOn composeVector (scalarRow d) := by
  intro limits args hfits _
  obtain ⟨hlength, hscalar⟩ := hfits.replicate
  have hreal : ∀ a ∈ args, Safe (fun _ => True) (realArg "vec" a) := by
    intro a ha
    obtain ⟨s, rfl⟩ := KindSet.contains_scalar.mp (hscalar a ha)
    trivial
  refine (Safe.mapM hreal).bind fun xs hxs => ?_
  obtain ⟨v, hv⟩ := ofComponents?_of_length (hxs.1.trans hlength)
  rw [hv]
  exact Value.known_vector d v

theorem mapM_components?_isSome {args : List Value}
    (h : ∀ a ∈ args, ∃ d v, a = .vector d v) : ∃ rows, args.mapM Value.components? = some rows := by
  induction args with
  | nil => exact ⟨[], rfl⟩
  | cons a args ih =>
      obtain ⟨⟨d, v, rfl⟩, hargs⟩ := List.forall_mem_cons.mp h
      obtain ⟨rows, hrows⟩ := ih hargs
      exact ⟨v.toList :: rows, by simp [List.mapM_cons, hrows, Value.components?]⟩

theorem composeMatrix_safe {d : Dimension} : Evaluation.SafeOn composeMatrix (vectorRows d) := by
  intro limits args hfits _
  have hvector : ∀ a ∈ args, ∃ d v, a = .vector d v := by
    intro a ha
    exact ⟨d, KindSet.contains_of_vector.mp (hfits.replicate.2 a ha)⟩
  obtain ⟨rows, hrows⟩ := mapM_components?_isSome hvector
  rw [composeMatrix, hrows]
  dsimp only
  split
  · next h => exact Value.known_of_ofRows? h
  · rfl

theorem dot_safe : Evaluation.SafeOn dot [.vector, .vector] := by
  refine Evaluation.safeOn_binary fun limits a b ha hb => ?_
  obtain ⟨d, v, rfl⟩ := KindSet.contains_vector.mp ha
  obtain ⟨e, w, rfl⟩ := KindSet.contains_vector.mp hb
  show Safe Value.Known (if h : d = e then _ else _)
  split
  · exact Value.known_scalar _
  · rfl

theorem cross_safe : Evaluation.SafeOn cross [.of (.vector .three), .of (.vector .three)] := by
  refine Evaluation.safeOn_binary fun limits a b ha hb => ?_
  obtain ⟨v, rfl⟩ := KindSet.contains_of_vector.mp ha
  obtain ⟨w, rfl⟩ := KindSet.contains_of_vector.mp hb
  exact Value.known_vector .three _

theorem norm_safe : Evaluation.SafeOn norm [.vector] :=
  Evaluation.safeOn_vector fun _ _ _ => Value.known_scalar _

theorem normalize_safe : Evaluation.SafeOn normalize [.vector] := by
  refine Evaluation.safeOn_vector fun limits d v => ?_
  simp only [normalize, unary]
  split
  · exact Value.known_vector d _
  · rfl

theorem transpose_safe : Evaluation.SafeOn transpose [.matrix] :=
  Evaluation.safeOn_matrix fun _ d _ => Value.known_matrix d _

theorem determinant_safe : Evaluation.SafeOn determinant [.matrix] :=
  Evaluation.safeOn_matrix fun _ _ _ => Value.known_scalar _

theorem inverse_safe : Evaluation.SafeOn inverse [.matrix] := by
  refine Evaluation.safeOn_matrix fun limits d m => ?_
  simp only [inverse, unary]
  split
  · exact Value.known_matrix d _
  · rfl

end LinearAlgebra

/-! ## Units -/

namespace UnitConversion

theorem unitArg_safe {op : String} {v : Value} (hv : KindSet.unit.contains v.kind)
    (hknown : v.Known) :
    Safe (fun found => found.1 ∈ MeasureFamily.all ∧ found.2 ∈ found.1.measures)
      (unitArg op v) := by
  obtain ⟨name, rfl⟩ := KindSet.contains_unit.mp hv
  obtain ⟨⟨family, measure⟩, hfound⟩ := Option.isSome_iff_exists.mp (hknown name rfl)
  obtain ⟨hfamily, hmeasure, -⟩ := MeasureFamily.lookup?_eq_some hfound
  simp only [unitArg, hfound]
  exact ⟨hfamily, hmeasure⟩

theorem convertValue_safe {op : String} {args : List Value} {value : Value}
    (hvalue : convertible.contains value.kind) {family : MeasureFamily}
    (hfamily : family ∈ MeasureFamily.all) {source target : Measure}
    (hsource : source ∈ family.measures) (htarget : target ∈ family.measures) :
    Safe Value.Known (convertValue op args value family source target) := by
  rw [convertible, KindSet.contains_union, Bool.or_eq_true] at hvalue
  unfold convertValue
  split
  · rfl
  · next hconverts =>
    rcases hvalue with hscalar | hvector
    · obtain ⟨s, rfl⟩ := KindSet.contains_scalar.mp hscalar
      exact Value.known_scalar _
    · -- A family that converts vectors has no offsets, so that there is a factor.
      obtain ⟨d, v, rfl⟩ := KindSet.contains_vector.mp hvector
      have hd : family.converts.contains (.vector d) := by simpa [Value.kind] using hconverts
      obtain ⟨factor, hfactor⟩ := MeasureFamily.factorTo?_isSome hfamily hd hsource htarget
      simp only [hfactor]
      exact scaleShaped_safe (.inl ⟨d, v, rfl⟩) factor

theorem toBaseUnit_safe : Evaluation.SafeOn toBaseUnit [convertible, .unit] := by
  intro limits args hfits hknown
  obtain ⟨value, unit, rfl, hvalue, hunit⟩ := hfits.binary
  refine (unitArg_safe hunit (hknown unit (by simp))).bind ?_
  rintro ⟨family, source⟩ ⟨hfamily, hsource⟩
  exact convertValue_safe hvalue hfamily hsource List.mem_cons_self

/-- Units of unlike families are refused before anything is converted. -/
theorem convert_safe : Evaluation.SafeOn convert [convertible, .unit, .unit] := by
  intro limits args hfits hknown
  obtain ⟨value, first, second, rfl, hvalue, hfirst, hsecond⟩ := hfits.ternary
  refine (unitArg_safe hfirst (hknown first (by simp))).bind ?_
  rintro ⟨family, source⟩ ⟨hfamily, hsource⟩
  refine (unitArg_safe hsecond (hknown second (by simp))).bind ?_
  rintro ⟨family', target⟩ ⟨hfamily', htarget⟩
  dsimp only at hfamily hsource hfamily' htarget ⊢
  split
  · rfl
  · next hname =>
    obtain rfl := MeasureFamily.eq_of_name_eq hfamily hfamily' (not_not.mp hname)
    exact convertValue_safe hvalue hfamily hsource htarget

end UnitConversion

end ReversePolish
