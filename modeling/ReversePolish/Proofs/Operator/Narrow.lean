import ReversePolish.Operator.Arithmetic
import ReversePolish.Operator.Constants
import ReversePolish.Operator.Conversion
import ReversePolish.Operator.Elementary
import ReversePolish.Operator.Linear
import ReversePolish.Operator.Units
import ReversePolish.Proofs.Value.Shape

/-! # Operators that make no integers of any size

Where machine integers are not promoted on overflow, only a conversion makes an integer of any size
of values none of which is one. -/

namespace ReversePolish

/-- Whether the result, if there is one, has the property. -/
def Returns {α : Type} (P : α → Prop) : Except Error α → Prop
  | .ok a => P a
  | .error _ => True

namespace Returns

variable {α β : Type} {P : α → Prop} {Q : β → Prop} {x : Except Error α}

theorem of_eq_ok (h : Returns P x) {a : α} (hx : x = .ok a) : P a := by
  rwa [hx] at h

theorem bind {f : α → Except Error β} (h : Returns P x) (hnext : ∀ a, P a → Returns Q (f a)) :
    Returns Q (x >>= f) := by
  cases x with
  | error err => trivial
  | ok a => exact hnext a h

/-- Whatever the first part results in. -/
theorem bind_any {f : α → Except Error β} (hnext : ∀ a, Returns Q (f a)) : Returns Q (x >>= f) := by
  cases x with
  | error err => trivial
  | ok a => exact hnext a

theorem ite {c : Prop} [Decidable c] {y : Except Error α} (hx : Returns P x) (hy : Returns P y) :
    Returns P (if c then x else y) := by
  split
  · exact hx
  · exact hy

end Returns

/-! ## Values -/

/-- Whether the value is none of the integers of any size. -/
def Value.IsNarrow (v : Value) : Prop := v.kind ≠ .bigInt

/-- Whether the common rank is none of integers of any size. -/
def Scalar.Pair.IsNarrow (p : Scalar.Pair) : Prop := ∀ m n, p ≠ .bigInt m n

namespace Value

@[simp]
theorem isNarrow_int (n : Word) : (int n).IsNarrow := nofun

@[simp]
theorem isNarrow_real (x : Float) : (real x).IsNarrow := nofun

@[simp]
theorem isNarrow_vector (d : Dimension) (v : RealVector d.size) : (vector d v).IsNarrow := nofun

@[simp]
theorem isNarrow_matrix (d : Dimension) (m : SquareMatrix d.size) : (matrix d m).IsNarrow := nofun

@[simp]
theorem isNarrow_unit (name : String) : (unit name).IsNarrow := nofun

@[simp]
theorem not_isNarrow_bigInt (n : Int) : ¬ (bigInt n).IsNarrow := fun h => h rfl

end Value

open Operator Value

/-- Whether arguments none of which is an integer of any size have no such result, unless overflow
promotes. -/
def Evaluation.KeepsNarrow (f : Evaluation) : Prop :=
  ∀ limits : Limits, limits.promotion = .explicit → ∀ args, (∀ v ∈ args, Value.IsNarrow v) →
    Returns IsNarrow (f limits args)

namespace Operator

variable {op : String}

/-! ## Arguments -/

theorem unary_keepsNarrow {f : Limits → Value → Except Error Value}
    (h : ∀ limits : Limits, limits.promotion = .explicit → ∀ a, a.IsNarrow →
      Returns IsNarrow (f limits a)) :
    Evaluation.KeepsNarrow fun limits => unary op (f limits) := by
  intro limits hexplicit args hargs
  match args with
  | [a] => exact h limits hexplicit a (hargs a List.mem_cons_self)
  | [] | _ :: _ :: _ => trivial

theorem binary_keepsNarrow {f : Limits → Value → Value → Except Error Value}
    (h : ∀ limits : Limits, limits.promotion = .explicit → ∀ a b, a.IsNarrow → b.IsNarrow →
      Returns IsNarrow (f limits a b)) :
    Evaluation.KeepsNarrow fun limits => binary op (f limits) := by
  intro limits hexplicit args hargs
  match args with
  | [a, b] => exact h limits hexplicit a b (hargs a (by simp)) (hargs b (by simp))
  | [] | [_] | _ :: _ :: _ :: _ => trivial

theorem scalarPair_returns {a b : Value} (ha : a.IsNarrow) (hb : b.IsNarrow) :
    Returns Scalar.Pair.IsNarrow (scalarPair op a b) := by
  unfold scalarPair
  split
  · next s t =>
    cases s with
    | bigInt m => exact absurd ha (not_isNarrow_bigInt m)
    | _ =>
        cases t with
        | bigInt n => exact absurd hb (not_isNarrow_bigInt n)
        | _ => exact nofun
  · trivial

/-! ## Vectors and matrices -/

theorem addShaped_returns (a b : Value) : Returns IsNarrow (addShaped op a b) := by
  unfold addShaped
  split
  · split
    · exact isNarrow_vector _ _
    · trivial
  · split
    · exact isNarrow_matrix _ _
    · trivial
  · trivial

theorem scaleShaped_returns (a : Value) (k : Float) : Returns IsNarrow (scaleShaped op a k) := by
  unfold scaleShaped
  split
  · exact isNarrow_vector _ _
  · exact isNarrow_matrix _ _
  · trivial

theorem mulShaped_returns (a b : Value) : Returns IsNarrow (mulShaped op a b) := by
  unfold mulShaped
  split
  · exact scaleShaped_returns _ _
  · exact scaleShaped_returns _ _
  · split
    · exact isNarrow_matrix _ _
    · trivial
  · split
    · exact isNarrow_vector _ _
    · trivial
  · trivial

end Operator

/-! ## Arithmetic -/

namespace Arithmetic

variable {op : String} {limits : Limits}

theorem overflowed_returns (h : limits.promotion = .explicit) (n : Int) :
    Returns IsNarrow (overflowed op limits n) := by
  rw [overflowed, h]
  trivial

theorem settle_returns (h : limits.promotion = .explicit) (n : Int) :
    Returns IsNarrow (settle op limits n) := by
  unfold settle
  split
  · exact isNarrow_int _
  · exact overflowed_returns h n

theorem ranked_returns (h : limits.promotion = .explicit) {checked : Word → Word → Option Word}
    {exact : Int → Int → Int} {approximate : Float → Float → Float} {p : Scalar.Pair}
    (hp : p.IsNarrow) : Returns IsNarrow (ranked op limits checked exact approximate p) := by
  cases p with
  | int a b =>
      simp only [ranked]
      split
      · exact isNarrow_int _
      · exact overflowed_returns h _
  | bigInt a b => exact absurd rfl (hp a b)
  | real x y => exact isNarrow_real _

theorem quotient_returns (h : limits.promotion = .explicit) {p : Scalar.Pair} (hp : p.IsNarrow) :
    Returns IsNarrow (quotient limits p) := by
  cases p with
  | int a b =>
      simp only [quotient]
      split
      · split
        · exact isNarrow_int _
        · exact overflowed_returns h _
      · exact isNarrow_real _
  | bigInt a b => exact absurd rfl (hp a b)
  | real x y => exact isNarrow_real _

variable {a b : Value}

theorem mulValues_returns (h : limits.promotion = .explicit) (ha : a.IsNarrow) (hb : b.IsNarrow) :
    Returns IsNarrow (mulValues limits a b) := by
  unfold mulValues
  split
  · exact .bind_any fun _ => (scalarPair_returns ha hb).bind fun _ => ranked_returns h
  · exact mulShaped_returns a b

theorem divValues_returns (h : limits.promotion = .explicit) (ha : a.IsNarrow) (hb : b.IsNarrow) :
    Returns IsNarrow (divValues limits a b) := by
  refine .bind_any fun _ => ?_
  split
  · exact (scalarPair_returns ha hb).bind fun _ => quotient_returns h
  · exact .bind_any fun _ => scaleShaped_returns a _

theorem realPower_returns (base exponent : Value) : Returns IsNarrow (realPower base exponent) :=
  .bind_any fun _ => .bind_any fun _ => .ite trivial (.ite trivial (isNarrow_real _))

theorem integerPower_returns (h : limits.promotion = .explicit) {base : Scalar}
    (hbase : (Value.scalar base).IsNarrow) {n : Int} (hn : base.integer? = some n) (e : Nat) :
    Returns IsNarrow (integerPower limits base n e) := by
  refine .ite trivial (.bind_any fun _ => ?_)
  cases base with
  | int _ => exact settle_returns h _
  | bigInt m => exact absurd hbase (not_isNarrow_bigInt m)
  | real _ => cases hn

theorem powValues_returns (h : limits.promotion = .explicit) (ha : a.IsNarrow) :
    Returns IsNarrow (powValues limits a b) := by
  unfold powValues
  split
  · next hinteger _ =>
    exact .ite trivial (.ite (integerPower_returns h ha hinteger _) (realPower_returns _ _))
  · exact realPower_returns _ _

theorem add_keepsNarrow : add.KeepsNarrow := by
  refine binary_keepsNarrow fun limits h a b ha hb => ?_
  unfold addValues
  split
  · exact (scalarPair_returns ha hb).bind fun _ => ranked_returns h
  · exact addShaped_returns a b

theorem sub_keepsNarrow : sub.KeepsNarrow := by
  refine binary_keepsNarrow fun limits h a b ha hb => ?_
  unfold subValues
  split
  · exact (scalarPair_returns ha hb).bind fun _ => ranked_returns h
  · exact .bind_any fun _ => addShaped_returns a _

theorem mul_keepsNarrow : mul.KeepsNarrow :=
  binary_keepsNarrow fun _ h _ _ => mulValues_returns h

theorem square_keepsNarrow : square.KeepsNarrow :=
  unary_keepsNarrow fun _ h _ ha => mulValues_returns h ha ha

theorem div_keepsNarrow : div.KeepsNarrow :=
  binary_keepsNarrow fun _ h _ _ => divValues_returns h

theorem inv_keepsNarrow : inv.KeepsNarrow :=
  unary_keepsNarrow fun _ h _ ha => divValues_returns h (isNarrow_int 1) ha

theorem floorDiv_keepsNarrow : floorDiv.KeepsNarrow :=
  binary_keepsNarrow fun _ h _ _ ha hb =>
    .bind_any fun _ => (scalarPair_returns ha hb).bind fun _ => ranked_returns h

theorem floorMod_keepsNarrow : floorMod.KeepsNarrow :=
  binary_keepsNarrow fun _ h _ _ ha hb =>
    .bind_any fun _ => (scalarPair_returns ha hb).bind fun _ => ranked_returns h

theorem neg_keepsNarrow : neg.KeepsNarrow := by
  refine unary_keepsNarrow fun limits h a ha => ?_
  split
  · exact settle_returns h _
  · exact absurd ha (not_isNarrow_bigInt _)
  · exact isNarrow_real _
  · unfold negShaped
    split
    · exact isNarrow_vector _ _
    · exact isNarrow_matrix _ _
    · trivial

theorem abs_keepsNarrow : abs.KeepsNarrow := by
  refine unary_keepsNarrow fun limits h a ha => ?_
  split
  · exact settle_returns h _
  · exact absurd ha (not_isNarrow_bigInt _)
  · exact .bind_any fun _ => isNarrow_real _

theorem sign_keepsNarrow : sign.KeepsNarrow := by
  refine unary_keepsNarrow fun limits _ a _ => ?_
  split
  · exact isNarrow_int _
  · exact isNarrow_int _
  · exact .bind_any fun _ => isNarrow_real _

theorem pow_keepsNarrow : pow.KeepsNarrow :=
  binary_keepsNarrow fun _ h _ _ ha _ => powValues_returns h ha

theorem sqrt_keepsNarrow : sqrt.KeepsNarrow := by
  refine unary_keepsNarrow fun limits _ a ha => ?_
  split
  · next n =>
    refine .ite trivial ?_
    cases wordRoot? n with
    | some root => exact isNarrow_int root
    | none => exact isNarrow_real _
  · exact absurd ha (not_isNarrow_bigInt _)
  · exact .bind_any fun _ => .ite trivial (isNarrow_real _)

theorem min_keepsNarrow : min.KeepsNarrow := by
  refine binary_keepsNarrow fun limits _ a b ha hb => .bind_any fun p => ?_
  show IsNarrow (if p.compare = .gt then b else a)
  split
  · exact hb
  · exact ha

theorem max_keepsNarrow : max.KeepsNarrow := by
  refine binary_keepsNarrow fun limits _ a b ha hb => .bind_any fun p => ?_
  show IsNarrow (if p.compare = .lt then b else a)
  split
  · exact hb
  · exact ha

theorem operators_keepNarrow : ∀ op ∈ operators, Evaluation.KeepsNarrow op.evaluate := by
  simp only [operators, List.forall_mem_cons]
  exact ⟨add_keepsNarrow, sub_keepsNarrow, mul_keepsNarrow, div_keepsNarrow, floorDiv_keepsNarrow,
    floorMod_keepsNarrow, neg_keepsNarrow, abs_keepsNarrow, pow_keepsNarrow, square_keepsNarrow,
    sqrt_keepsNarrow, inv_keepsNarrow, min_keepsNarrow, max_keepsNarrow, sign_keepsNarrow,
    List.forall_mem_nil _⟩

end Arithmetic

/-! ## Functions of reals -/

namespace Elementary

theorem real_keepsNarrow {op : String} {f : Float → Float} : (real op f).KeepsNarrow :=
  unary_keepsNarrow fun _ _ _ _ => .bind_any fun _ => isNarrow_real _

theorem realWhere_keepsNarrow {op : String} {defined : Float → Bool} {reason : DomainReason}
    {f : Float → Float} : (realWhere op defined reason f).KeepsNarrow :=
  unary_keepsNarrow fun _ _ _ _ => .bind_any fun _ => .ite (isNarrow_real _) trivial

theorem angle_keepsNarrow : angle.KeepsNarrow :=
  binary_keepsNarrow fun _ _ _ _ _ _ => .bind_any fun _ => .bind_any fun _ => isNarrow_real _

theorem rounding_keepsNarrow {op : String} {r : Rounding} : (rounding op r).KeepsNarrow := by
  refine unary_keepsNarrow fun limits _ a ha => ?_
  split
  · exact isNarrow_int _
  · exact absurd ha (not_isNarrow_bigInt _)
  · exact .bind_any fun _ => isNarrow_real _

theorem operators_keepNarrow : ∀ op ∈ operators, Evaluation.KeepsNarrow op.evaluate := by
  simp only [operators, List.forall_mem_cons]
  exact ⟨real_keepsNarrow, real_keepsNarrow, real_keepsNarrow, realWhere_keepsNarrow,
    realWhere_keepsNarrow, real_keepsNarrow, angle_keepsNarrow, real_keepsNarrow,
    realWhere_keepsNarrow, realWhere_keepsNarrow, rounding_keepsNarrow, rounding_keepsNarrow,
    rounding_keepsNarrow, rounding_keepsNarrow, List.forall_mem_nil _⟩

end Elementary

/-! ## Linear algebra -/

namespace LinearAlgebra

theorem composeVector_keepsNarrow : composeVector.KeepsNarrow := by
  intro limits _ args _
  refine .bind_any fun xs => ?_
  split
  · next v hv =>
    obtain ⟨d, w, rfl, -⟩ := ofComponents?_eq_some.mp hv
    exact isNarrow_vector d w
  · trivial

theorem composeMatrix_keepsNarrow : composeMatrix.KeepsNarrow := by
  intro limits _ args _
  unfold composeMatrix
  split
  · trivial
  split
  · next v hv =>
    obtain ⟨d, m, rfl, -⟩ := ofRows?_eq_some.mp hv
    exact isNarrow_matrix d m
  · trivial

theorem dot_keepsNarrow : dot.KeepsNarrow := by
  refine binary_keepsNarrow fun limits _ a b _ _ => ?_
  split
  · split
    · exact isNarrow_real _
    · trivial
  · trivial

theorem cross_keepsNarrow : cross.KeepsNarrow := by
  refine binary_keepsNarrow fun limits _ a b _ _ => ?_
  split
  · exact isNarrow_vector _ _
  · trivial

theorem norm_keepsNarrow : norm.KeepsNarrow := by
  refine unary_keepsNarrow fun limits _ a _ => ?_
  split
  · exact isNarrow_real _
  · trivial

theorem normalize_keepsNarrow : normalize.KeepsNarrow := by
  refine unary_keepsNarrow fun limits _ a _ => ?_
  split
  · split
    · exact isNarrow_vector _ _
    · trivial
  · trivial

theorem transpose_keepsNarrow : transpose.KeepsNarrow := by
  refine unary_keepsNarrow fun limits _ a _ => ?_
  split
  · exact isNarrow_matrix _ _
  · trivial

theorem determinant_keepsNarrow : determinant.KeepsNarrow := by
  refine unary_keepsNarrow fun limits _ a _ => ?_
  split
  · exact isNarrow_real _
  · trivial

theorem inverse_keepsNarrow : inverse.KeepsNarrow := by
  refine unary_keepsNarrow fun limits _ a _ => ?_
  split
  · split
    · exact isNarrow_matrix _ _
    · trivial
  · trivial

theorem operators_keepNarrow : ∀ op ∈ operators, Evaluation.KeepsNarrow op.evaluate := by
  simp only [operators, List.forall_mem_cons]
  exact ⟨composeVector_keepsNarrow, composeVector_keepsNarrow, composeVector_keepsNarrow,
    composeMatrix_keepsNarrow, composeMatrix_keepsNarrow, composeMatrix_keepsNarrow,
    dot_keepsNarrow, cross_keepsNarrow, norm_keepsNarrow, normalize_keepsNarrow,
    transpose_keepsNarrow, determinant_keepsNarrow, inverse_keepsNarrow, List.forall_mem_nil _⟩

end LinearAlgebra

/-! ## Conversions and constants -/

namespace Conversion

theorem toReal_keepsNarrow : toReal.KeepsNarrow := by
  refine unary_keepsNarrow fun limits _ a _ => ?_
  unfold scalar
  split
  · exact isNarrow_real _
  · trivial

theorem toWord_returns (n : Int) : Returns IsNarrow (toWord n) := by
  unfold toWord
  split
  · exact isNarrow_int _
  · trivial

theorem toInt_keepsNarrow : toInt.KeepsNarrow := by
  refine unary_keepsNarrow fun limits _ a ha => ?_
  unfold scalar
  split
  · next s =>
    cases s with
    | int n => exact isNarrow_int n
    | bigInt n => exact toWord_returns n
    | real x => exact .ite (toWord_returns _) trivial
  · trivial

theorem operators_keepNarrow : ∀ op ∈ operators, op.name ≠ "bigint" →
    Evaluation.KeepsNarrow op.evaluate := by
  simp only [operators, List.forall_mem_cons]
  exact ⟨fun _ => toReal_keepsNarrow, fun hname => absurd rfl hname, fun _ => toInt_keepsNarrow,
    List.forall_mem_nil _⟩

end Conversion

theorem Constants.operators_keepNarrow :
    ∀ op ∈ operators, Evaluation.KeepsNarrow op.evaluate := by
  have hconstant (x : Float) : Evaluation.KeepsNarrow (constant x) := fun _ _ _ _ => isNarrow_real x
  simp only [operators, List.forall_mem_cons]
  exact ⟨hconstant _, hconstant _, List.forall_mem_nil _⟩

/-! ## Units -/

namespace UnitConversion

theorem convertValue_returns {op : String} (args : List Value) (value : Value)
    (family : MeasureFamily) (source target : Measure) :
    Returns IsNarrow (convertValue op args value family source target) := by
  unfold convertValue
  split
  · trivial
  split
  · exact isNarrow_real _
  split
  · exact scaleShaped_returns _ _
  · trivial

theorem convert_keepsNarrow : convert.KeepsNarrow := by
  intro limits _ args _
  match args with
  | [value, source, target] =>
      refine .bind_any fun _ => .bind_any fun _ => .ite trivial ?_
      exact convertValue_returns _ value _ _ _
  | [] | [_] | [_, _] | _ :: _ :: _ :: _ :: _ => trivial

theorem toBaseUnit_keepsNarrow : toBaseUnit.KeepsNarrow := by
  intro limits _ args _
  match args with
  | [value, source] => exact .bind_any fun _ => convertValue_returns _ value _ _ _
  | [] | [_] | _ :: _ :: _ :: _ => trivial

theorem operators_keepNarrow : ∀ op ∈ operators, Evaluation.KeepsNarrow op.evaluate := by
  simp only [operators, List.forall_mem_cons]
  exact ⟨convert_keepsNarrow, toBaseUnit_keepsNarrow, List.forall_mem_nil _⟩

end UnitConversion

end ReversePolish
