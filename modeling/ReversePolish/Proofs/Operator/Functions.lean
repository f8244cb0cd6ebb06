import ReversePolish.Operator.Conversion
import ReversePolish.Operator.Constants
import ReversePolish.Operator.Elementary
import ReversePolish.Operator.Linear
import ReversePolish.Operator.Units
import ReversePolish.Proofs.Measure.Families
import ReversePolish.Proofs.Operator.RankFree

/-! # Functions of reals, vectors, matrices and units

They take integers as reals, or not at all. -/

namespace ReversePolish

open Operator

/-! ## Conversions and constants -/

namespace Conversion

theorem toReal_rankFree : toReal.RankFree := rankFree_unary_of_int fun _ _ => .given (.refl _)

theorem toBigInt_rankFree : toBigInt.RankFree :=
  rankFree_unary_of_int fun _ _ => .given (.refl _)

theorem toInt_rankFree : toInt.RankFree := by
  refine rankFree_unary_of_int fun _ n => ?_
  simp only [scalar, toWord, Word.ofInt?_toInt]
  exact .given (.refl _)

end Conversion

theorem Constants.constant_rankFree {x : Float} : (constant x).RankFree :=
  fun _ _ => .given (.refl _)

/-! ## Elementary functions -/

namespace Elementary

theorem real_rankFree {op : String} {f : Float → Float} : (real op f).RankFree :=
  rankFree_unary_of_int fun _ _ => .given (.refl _)

theorem realWhere_rankFree {op : String} {defined : Float → Bool} {reason : DomainReason}
    {f : Float → Float} : (realWhere op defined reason f).RankFree :=
  rankFree_unary_of_int fun _ _ => .refl .refl _

theorem angle_rankFree : angle.RankFree := by
  refine rankFree_binary fun _ y x => ?_
  rw [realArg_widened, realArg_widened]
  exact .refl .refl _

theorem rounding_rankFree {op : String} {r : Rounding} : (rounding op r).RankFree :=
  rankFree_unary_of_int fun _ n => .given (.inr ⟨n.toInt, rfl, rfl⟩)

end Elementary

/-! ## Linear algebra -/

namespace LinearAlgebra

theorem mapM_widened {β : Type} {m : Type → Type} [Monad m] [LawfulMonad m] {f : Value → m β}
    (hf : ∀ v, f v.widened = f v) (args : List Value) :
    (args.map Value.widened).mapM f = args.mapM f := by
  induction args with
  | nil => rfl
  | cons v args ih => rw [List.map_cons, List.mapM_cons, List.mapM_cons, hf, ih]

theorem composeVector_rankFree : composeVector.RankFree := by
  intro bits args
  simp only [composeVector]
  rw [mapM_widened realArg_widened]
  exact .refl .refl _

theorem composeMatrix_rankFree : composeMatrix.RankFree := by
  intro bits args
  simp only [composeMatrix]
  rw [mapM_widened Value.components?_widened]
  exact .refl .refl _

theorem dot_rankFree : dot.RankFree := by
  refine rankFree_binary fun _ a b => ?_
  cases a with
  | scalar s => exact .failed rfl
  | _ =>
      cases b with
      | scalar t => exact .failed rfl
      | _ => exact .refl .refl _

theorem cross_rankFree : cross.RankFree := by
  refine rankFree_binary fun _ a b => ?_
  cases b with
  | scalar t =>
      cases a with
      | vector d v => cases d <;> exact .failed rfl
      | _ => exact .failed rfl
  | _ =>
      cases a with
      | scalar s => exact .failed rfl
      | _ => exact .refl .refl _

theorem norm_rankFree : norm.RankFree := rankFree_unary_of_int fun _ _ => .failed rfl

theorem normalize_rankFree : normalize.RankFree := rankFree_unary_of_int fun _ _ => .failed rfl

theorem transpose_rankFree : transpose.RankFree := rankFree_unary_of_int fun _ _ => .failed rfl

theorem determinant_rankFree : determinant.RankFree := rankFree_unary_of_int fun _ _ => .failed rfl

theorem inverse_rankFree : inverse.RankFree := rankFree_unary_of_int fun _ _ => .failed rfl

end LinearAlgebra

/-! ## Units -/

namespace UnitConversion

theorem converts_rankFree {f : MeasureFamily} (hf : f ∈ MeasureFamily.all) :
    f.converts.RankFree := by
  have hall : ∀ f ∈ MeasureFamily.all, f.converts.contains .int = f.converts.contains .bigInt := by
    decide
  exact hall f hf

/-- A family that is found is a known one. -/
theorem unitArg_widened (op : String) (v : Value) :
    Alike (fun found found' => found = found' ∧ found.1 ∈ MeasureFamily.all) (unitArg op v)
      (unitArg op v.widened) := by
  cases v with
  | unit name =>
      simp only [unitArg, Value.widened]
      cases h : MeasureFamily.lookup? name with
      | some found => exact .given ⟨rfl, MeasureFamily.mem_all_of_lookup? h⟩
      | none => exact .failed rfl
  | _ => exact .failed rfl

theorem convertValue_widened {op : String} {args args' : List Value} {family : MeasureFamily}
    (hfamily : family ∈ MeasureFamily.all) (value : Value) (source target : Measure) :
    Alike Value.Agrees (convertValue op args value family source target)
      (convertValue op args' value.widened family source target) := by
  simp only [convertValue]
  rw [(converts_rankFree hfamily).contains_widened]
  split
  · exact .failed rfl
  · cases value with
    | scalar s =>
        simp only [Value.widened, Scalar.toReal_widened]
        exact .refl .refl _
    | _ => exact .refl .refl _

theorem toBaseUnit_rankFree : toBaseUnit.RankFree := by
  intro bits args
  match args with
  | [value, source] =>
      refine (unitArg_widened "ubase" source).bind ?_
      rintro ⟨family, source⟩ _ ⟨rfl, hfamily⟩
      exact convertValue_widened hfamily value source family.base
  | [] => exact .failed rfl
  | [_] => exact .failed rfl
  | _ :: _ :: _ :: _ => exact .failed rfl

theorem convert_rankFree : convert.RankFree := by
  intro bits args
  match args with
  | [value, source, target] =>
      refine (unitArg_widened "convert" source).bind ?_
      rintro ⟨sourceFamily, source⟩ _ ⟨rfl, hfamily⟩
      refine (unitArg_widened "convert" target).bind ?_
      rintro ⟨targetFamily, target⟩ _ ⟨rfl, _⟩
      dsimp only
      split
      · exact .failed rfl
      · exact convertValue_widened hfamily value source target
  | [] => exact .failed rfl
  | [_] => exact .failed rfl
  | [_, _] => exact .failed rfl
  | _ :: _ :: _ :: _ :: _ => exact .failed rfl

end UnitConversion

end ReversePolish
