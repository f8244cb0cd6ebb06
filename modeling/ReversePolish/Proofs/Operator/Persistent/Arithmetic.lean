import ReversePolish.Operator.Arithmetic
import ReversePolish.Proofs.Operator.Persistent.Basic

/-! # Arithmetic under stricter and looser limits

Limits are consulted where a machine integer overflows, and before long integers are computed. -/

namespace ReversePolish.Arithmetic

open Operator

variable {op : String} {strict loose : Limits}

/-! ## Overflow and length -/

theorem overflowed_persists (h : strict.Within loose) (n : Int) :
    Persists Error.IsOperational Eq (overflowed op strict n) (overflowed op loose n) := by
  unfold overflowed
  cases hstrict : strict.promotion with
  | onOverflow =>
      rw [h.onOverflow hstrict]
      exact .given rfl
  | explicit => exact .refused (by rfl) _

theorem settle_persists (h : strict.Within loose) (n : Int) :
    Persists Error.IsOperational Eq (settle op strict n) (settle op loose n) := by
  unfold settle
  cases Word.ofInt? n with
  | some w => exact .given rfl
  | none => exact overflowed_persists h n

theorem ranked_persists (h : strict.Within loose) (checked : Word → Word → Option Word)
    (exact : Int → Int → Int) (approximate : Float → Float → Float) (p : Scalar.Pair) :
    Persists Error.IsOperational Eq (ranked op strict checked exact approximate p)
      (ranked op loose checked exact approximate p) := by
  cases p with
  | int a b =>
      simp only [ranked]
      cases checked a b with
      | some w => exact .given rfl
      | none => exact overflowed_persists h _
  | bigInt a b => exact .given rfl
  | real x y => exact .given rfl

theorem checkBits_persists (h : strict.Within loose) (bits : Nat) :
    Persists Error.IsOperational Eq (checkBits op strict bits) (checkBits op loose bits) := by
  have hbits := h.maxIntegerBits
  unfold checkBits
  by_cases hlong : strict.maxIntegerBits < bits
  · rw [if_pos hlong]
    exact .refused (by rfl) _
  · rw [if_neg hlong, if_neg (by omega)]
    exact .given rfl

theorem checkDivisor_raises (b : Value) : Raises Error.IsOperational (checkDivisor b) :=
  .ite rfl trivial

/-! ## Sums and products -/

theorem addValues_persists (h : strict.Within loose) (a b : Value) :
    Persists Error.IsOperational Eq (addValues strict a b) (addValues loose a b) := by
  unfold addValues
  split
  · exact .bind_left (scalarPair_raises a b) fun p => ranked_persists h _ _ _ p
  · exact (addShaped_raises a b).persists

theorem subValues_persists (h : strict.Within loose) (a b : Value) :
    Persists Error.IsOperational Eq (subValues strict a b) (subValues loose a b) := by
  unfold subValues
  split
  · exact .bind_left (scalarPair_raises a b) fun p => ranked_persists h _ _ _ p
  · exact (subShaped_raises a b).persists

theorem checkProduct_persists (h : strict.Within loose) (a b : Value) :
    Persists Error.IsOperational Eq (checkProduct strict a b) (checkProduct loose a b) := by
  unfold checkProduct
  split
  · exact checkBits_persists h _
  · exact .given rfl

theorem mulValues_persists (h : strict.Within loose) (a b : Value) :
    Persists Error.IsOperational Eq (mulValues strict a b) (mulValues loose a b) := by
  unfold mulValues
  split
  · refine (checkProduct_persists h a b).bind fun _ _ _ => ?_
    exact .bind_left (scalarPair_raises a b) fun p => ranked_persists h _ _ _ p
  · exact (mulShaped_raises a b).persists

theorem add_persistent : add.Persistent := binary_persistent fun _ _ => addValues_persists

theorem sub_persistent : sub.Persistent := binary_persistent fun _ _ => subValues_persists

theorem mul_persistent : mul.Persistent := binary_persistent fun _ _ => mulValues_persists

theorem square_persistent : square.Persistent :=
  unary_persistent fun _ _ h a => mulValues_persists h a a

/-! ## Division -/

theorem quotient_persists (h : strict.Within loose) (p : Scalar.Pair) :
    Persists Error.IsOperational Eq (quotient strict p) (quotient loose p) := by
  cases p with
  | int a b =>
      simp only [quotient]
      split
      · cases Word.quotient? a b with
        | some q => exact .given rfl
        | none => exact overflowed_persists h _
      · exact .given rfl
  | bigInt a b =>
      simp only [quotient]
      split
      · exact .given rfl
      · exact .given rfl
  | real x y => exact .given rfl

theorem divValues_persists (h : strict.Within loose) (a b : Value) :
    Persists Error.IsOperational Eq (divValues strict a b) (divValues loose a b) := by
  refine .bind_left (checkDivisor_raises b) fun _ => ?_
  split
  · exact .bind_left (scalarPair_raises a b) fun p => quotient_persists h p
  · exact .bind_left (realArg_raises b) fun _ => (scaleShaped_raises a _).persists

theorem div_persistent : div.Persistent := binary_persistent fun _ _ => divValues_persists

theorem inv_persistent : inv.Persistent :=
  unary_persistent fun _ _ h a => divValues_persists h (.int 1) a

theorem floorDiv_persistent : floorDiv.Persistent := by
  refine binary_persistent fun _ _ h a b => .bind_left (checkDivisor_raises b) fun _ => ?_
  exact .bind_left (scalarPair_raises a b) fun p => ranked_persists h _ _ _ p

theorem floorMod_persistent : floorMod.Persistent := by
  refine binary_persistent fun _ _ h a b => .bind_left (checkDivisor_raises b) fun _ => ?_
  exact .bind_left (scalarPair_raises a b) fun p => ranked_persists h _ _ _ p

/-! ## Sign -/

theorem neg_persistent : neg.Persistent := by
  refine unary_persistent fun _ _ h a => ?_
  split
  · exact settle_persists h _
  · exact .given rfl
  · exact .given rfl
  · exact (negShaped_raises _).persists

theorem abs_persistent : abs.Persistent := by
  refine unary_persistent fun _ _ h a => ?_
  split
  · exact settle_persists h _
  · exact .given rfl
  · exact .bind_left (realArg_raises _) fun _ => .given rfl

theorem sign_persistent : sign.Persistent := by
  refine unary_persistent_of_raises fun a => ?_
  split
  · trivial
  · trivial
  · exact (realArg_raises _).bind fun _ => trivial

/-! ## Powers and roots -/

theorem realPower_raises (base exponent : Value) :
    Raises Error.IsOperational (realPower base exponent) := by
  refine (realArg_raises base).bind fun _ => (realArg_raises exponent).bind fun _ => ?_
  exact .ite rfl (.ite rfl trivial)

theorem integerPower_persists (h : strict.Within loose) (base : Scalar) (b : Int) (e : Nat) :
    Persists Error.IsOperational Eq (integerPower strict base b e)
      (integerPower loose base b e) := by
  unfold integerPower
  split
  · exact .refused (by rfl) _
  · refine (checkBits_persists h _).bind fun _ _ _ => ?_
    split
    · exact settle_persists h _
    · split
      · exact .given rfl
      · exact .refused (by rfl) _

theorem powValues_persists (h : strict.Within loose) (base exponent : Value) :
    Persists Error.IsOperational Eq (powValues strict base exponent)
      (powValues loose base exponent) := by
  unfold powValues
  split
  · split
    · exact .refused (by rfl) _
    · split
      · exact integerPower_persists h _ _ _
      · exact (realPower_raises _ _).persists
  · exact (realPower_raises _ _).persists

theorem pow_persistent : pow.Persistent := binary_persistent fun _ _ => powValues_persists

theorem integerRoot_raises (n : Int) (root? : Option Value) :
    Raises Error.IsOperational (integerRoot n root?) := by
  unfold integerRoot
  split
  · rfl
  · cases root? with
    | some root => trivial
    | none => trivial

theorem sqrt_persistent : sqrt.Persistent := by
  refine unary_persistent_of_raises fun a => ?_
  split
  · exact integerRoot_raises _ _
  · exact integerRoot_raises _ _
  · exact (realArg_raises _).bind fun _ => .ite rfl trivial

/-! ## Extremes -/

theorem min_persistent : min.Persistent :=
  binary_persistent_of_raises fun a b => (scalarPair_raises a b).bind fun _ => trivial

theorem max_persistent : max.Persistent :=
  binary_persistent_of_raises fun a b => (scalarPair_raises a b).bind fun _ => trivial

end ReversePolish.Arithmetic
