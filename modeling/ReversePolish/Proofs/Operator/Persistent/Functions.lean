import ReversePolish.Operator.Constants
import ReversePolish.Operator.Conversion
import ReversePolish.Operator.Elementary
import ReversePolish.Operator.Linear
import ReversePolish.Operator.Units
import ReversePolish.Proofs.Operator.Persistent.Basic

/-! # Functions that do not consult the limits -/

namespace ReversePolish

open Operator

/-! ## Functions of reals -/

namespace Elementary

theorem real_persistent {op : String} {f : Float → Float} : (real op f).Persistent :=
  unary_persistent_of_raises fun a => (realArg_raises a).bind fun _ => trivial

theorem realWhere_persistent {op : String} {defined : Float → Bool} {reason : DomainReason}
    {f : Float → Float} : (realWhere op defined reason f).Persistent :=
  unary_persistent_of_raises fun a => (realArg_raises a).bind fun _ => .ite trivial rfl

theorem angle_persistent : angle.Persistent :=
  binary_persistent_of_raises fun y x =>
    (realArg_raises y).bind fun _ => (realArg_raises x).bind fun _ => trivial

theorem rounding_persistent {op : String} {r : Rounding} : (rounding op r).Persistent := by
  refine unary_persistent_of_raises fun a => ?_
  split
  · trivial
  · trivial
  · exact (realArg_raises _).bind fun _ => trivial

end Elementary

/-! ## Conversions and constants -/

namespace Conversion

theorem scalar_raises {op : String} {f : Scalar → Except Error Value}
    (h : ∀ s, Raises Error.IsOperational (f s)) (a : Value) :
    Raises Error.IsOperational (scalar op f a) := by
  cases a with
  | scalar s => exact h s
  | _ => rfl

theorem toReal_persistent : toReal.Persistent :=
  unary_persistent_of_raises (scalar_raises fun _ => trivial)

theorem toBigInt_persistent : toBigInt.Persistent := by
  refine unary_persistent_of_raises (scalar_raises fun s => ?_)
  cases s with
  | int n => trivial
  | bigInt n => trivial
  | real x => exact .ite trivial rfl

theorem toWord_raises (n : Int) : Raises Error.IsOperational (toWord n) := by
  unfold toWord
  split
  · trivial
  · rfl

theorem toInt_persistent : toInt.Persistent := by
  refine unary_persistent_of_raises (scalar_raises fun s => ?_)
  cases s with
  | int n => trivial
  | bigInt n => exact toWord_raises n
  | real x => exact .ite (toWord_raises _) rfl

end Conversion

theorem Constants.constant_persistent {x : Float} : (constant x).Persistent :=
  Evaluation.persistent_of_raises fun _ => trivial

/-! ## Linear algebra -/

namespace LinearAlgebra

theorem composeVector_persistent : composeVector.Persistent := by
  refine Evaluation.persistent_of_raises fun args => ?_
  refine (Raises.mapM fun a _ => realArg_raises a).bind fun xs => ?_
  split
  · trivial
  · rfl

theorem composeMatrix_persistent : composeMatrix.Persistent := by
  refine Evaluation.persistent_of_raises fun args => ?_
  split
  · rfl
  · split
    · trivial
    · rfl

theorem dot_persistent : dot.Persistent := by
  refine binary_persistent_of_raises fun a b => ?_
  split
  · split
    · trivial
    · rfl
  · rfl

theorem cross_persistent : cross.Persistent := by
  refine binary_persistent_of_raises fun a b => ?_
  split
  · trivial
  · rfl

theorem norm_persistent : norm.Persistent := by
  refine unary_persistent_of_raises fun a => ?_
  split
  · trivial
  · rfl

theorem normalize_persistent : normalize.Persistent := by
  refine unary_persistent_of_raises fun a => ?_
  split
  · split
    · trivial
    · rfl
  · rfl

theorem transpose_persistent : transpose.Persistent := by
  refine unary_persistent_of_raises fun a => ?_
  split
  · trivial
  · rfl

theorem determinant_persistent : determinant.Persistent := by
  refine unary_persistent_of_raises fun a => ?_
  split
  · trivial
  · rfl

theorem inverse_persistent : inverse.Persistent := by
  refine unary_persistent_of_raises fun a => ?_
  split
  · split
    · trivial
    · rfl
  · rfl

end LinearAlgebra

/-! ## Units -/

namespace UnitConversion

theorem unitArg_raises {op : String} (v : Value) : Raises Error.IsOperational (unitArg op v) := by
  unfold unitArg
  split
  · split
    · trivial
    · rfl
  · rfl

theorem convertValue_raises {op : String} (args : List Value) (value : Value)
    (family : MeasureFamily) (source target : Measure) :
    Raises Error.IsOperational (convertValue op args value family source target) := by
  unfold convertValue
  split
  · rfl
  · split
    · trivial
    · split
      · exact scaleShaped_raises _ _
      · rfl

theorem toBaseUnit_persistent : toBaseUnit.Persistent := by
  refine Evaluation.persistent_of_raises fun args => ?_
  match args with
  | [value, source] =>
      exact (unitArg_raises source).bind fun _ => convertValue_raises _ value _ _ _
  | [] => rfl
  | [_] => rfl
  | _ :: _ :: _ :: _ => rfl

theorem convert_persistent : convert.Persistent := by
  refine Evaluation.persistent_of_raises fun args => ?_
  match args with
  | [value, source, target] =>
      refine (unitArg_raises source).bind fun _ => (unitArg_raises target).bind fun _ => ?_
      exact .ite rfl (convertValue_raises _ value _ _ _)
  | [] => rfl
  | [_] => rfl
  | [_, _] => rfl
  | _ :: _ :: _ :: _ :: _ => rfl

end UnitConversion

end ReversePolish
