import ReversePolish.Operator.Arithmetic
import ReversePolish.Proofs.Operator.Safe.Basic

/-! # Arithmetic on arguments that it accepts -/

namespace ReversePolish.Arithmetic

open Operator

variable {op : String} {limits : Limits}

theorem overflowed_safe (n : Int) : Safe Value.Known (overflowed op limits n) := by
  unfold overflowed
  split
  · exact Value.known_scalar _
  · rfl

theorem settle_safe (n : Int) : Safe Value.Known (settle op limits n) := by
  unfold settle
  split
  · exact Value.known_scalar _
  · exact overflowed_safe n

theorem ranked_safe {checked : Word → Word → Option Word} {exact : Int → Int → Int}
    {approximate : Float → Float → Float} (p : Scalar.Pair) :
    Safe Value.Known (ranked op limits checked exact approximate p) := by
  cases p with
  | int a b =>
      simp only [ranked]
      split
      · exact Value.known_scalar _
      · exact overflowed_safe _
  | bigInt a b => exact Value.known_scalar _
  | real x y => exact Value.known_scalar _

theorem checkBits_safe (bits : ℕ) : Safe (fun _ => True) (checkBits op limits bits) :=
  .ite rfl trivial

theorem checkDivisor_safe (b : Value) : Safe (fun _ => True) (checkDivisor b) := .ite rfl trivial

theorem addValues_safe (s t : Scalar) :
    Safe Value.Known (addValues limits (.scalar s) (.scalar t)) := ranked_safe _

theorem addValues_shaped_safe {a : Value} (h : a.IsShaped) (b : Value) :
    Safe Value.Known (addValues limits a b) := by
  rw [addValues, if_neg (by simp [h.isScalar_eq])]
  exact addShaped_safe a b

theorem subValues_safe (s t : Scalar) :
    Safe Value.Known (subValues limits (.scalar s) (.scalar t)) := ranked_safe _

theorem subValues_shaped_safe {a b : Value} (ha : a.IsShaped) (hb : b.IsShaped) :
    Safe Value.Known (subValues limits a b) := by
  rw [subValues, if_neg (by simp [ha.isScalar_eq])]
  exact subShaped_safe a hb

theorem checkProduct_safe (a b : Value) : Safe (fun _ => True) (checkProduct limits a b) := by
  unfold checkProduct
  split
  · exact checkBits_safe _
  · trivial

theorem mulValues_safe (s t : Scalar) :
    Safe Value.Known (mulValues limits (.scalar s) (.scalar t)) :=
  (checkProduct_safe (.scalar s) (.scalar t)).bind fun _ _ => ranked_safe _

theorem mulValues_shaped_safe {a b : Value} (h : a.IsShaped ∨ b.IsShaped) :
    Safe Value.Known (mulValues limits a b) := by
  have hscalars : ¬ (a.isScalar && b.isScalar) := by
    rcases h with h | h
    · simp [h.isScalar_eq]
    · simp [h.isScalar_eq]
  rw [mulValues, if_neg hscalars]
  exact mulShaped_safe h

theorem quotient_safe (p : Scalar.Pair) : Safe Value.Known (quotient limits p) := by
  cases p with
  | int a b =>
      simp only [quotient]
      split
      · split
        · exact Value.known_scalar _
        · exact overflowed_safe _
      · exact Value.known_scalar _
  | bigInt a b =>
      simp only [quotient]
      split
      · exact Value.known_scalar _
      · exact Value.known_scalar _
  | real x y => exact Value.known_scalar _

theorem divValues_safe (s t : Scalar) :
    Safe Value.Known (divValues limits (.scalar s) (.scalar t)) :=
  (checkDivisor_safe (.scalar t)).bind fun _ _ => quotient_safe _

theorem divValues_shaped_safe {a : Value} (h : a.IsShaped) (t : Scalar) :
    Safe Value.Known (divValues limits a (.scalar t)) := by
  refine (checkDivisor_safe (.scalar t)).bind fun _ _ => ?_
  simp only [h.isScalar_eq, Bool.false_eq_true, if_false]
  exact scaleShaped_safe h _

theorem realPower_safe (s t : Scalar) : Safe Value.Known (realPower (.scalar s) (.scalar t)) := by
  simp only [realPower, realArg, scalarArg, Except.map, bind, Except.bind]
  split
  · rfl
  · split
    · rfl
    · exact Value.known_scalar _

theorem integerPower_safe {base : Scalar} {b : Int} (hb : base.integer? = some b) (e : ℕ) :
    Safe Value.Known (integerPower limits base b e) := by
  unfold integerPower
  split
  · rfl
  · refine (checkBits_safe _).bind fun _ _ => ?_
    split
    · exact settle_safe _
    · rw [hb]
      exact Value.known_scalar _

theorem powValues_safe (s t : Scalar) :
    Safe Value.Known (powValues limits (.scalar s) (.scalar t)) := by
  unfold powValues
  split
  · next hbase hb _ =>
    obtain rfl := Value.scalar.inj hbase
    split
    · rfl
    · split
      · exact integerPower_safe hb _
      · exact realPower_safe _ _
  · exact realPower_safe _ _

theorem integerRoot_safe {α : Type} (n : Int) (root? : Option α) (f : α → Scalar) :
    Safe Value.Known (integerRoot n (root?.map fun root => .scalar (f root))) := by
  unfold integerRoot
  split
  · rfl
  · cases root? with
    | none => exact Value.known_scalar _
    | some root => exact Value.known_scalar _

/-! ## The operators -/

theorem add_safe : ∀ sig ∈ alike, Evaluation.SafeOn add sig := by
  simp only [alike, scalarPairs, List.forall_mem_cons]
  exact ⟨Evaluation.safeOn_scalars fun _ s t => addValues_safe s t,
    Evaluation.safeOn_binary fun _ _ b ha _ =>
      addValues_shaped_safe (Value.isShaped_of_vector ha) b,
    Evaluation.safeOn_binary fun _ _ b ha _ =>
      addValues_shaped_safe (Value.isShaped_of_matrix ha) b,
    List.forall_mem_nil _⟩

theorem sub_safe : ∀ sig ∈ alike, Evaluation.SafeOn sub sig := by
  simp only [alike, scalarPairs, List.forall_mem_cons]
  exact ⟨Evaluation.safeOn_scalars fun _ s t => subValues_safe s t,
    Evaluation.safeOn_binary fun _ _ _ ha hb =>
      subValues_shaped_safe (Value.isShaped_of_vector ha) (Value.isShaped_of_vector hb),
    Evaluation.safeOn_binary fun _ _ _ ha hb =>
      subValues_shaped_safe (Value.isShaped_of_matrix ha) (Value.isShaped_of_matrix hb),
    List.forall_mem_nil _⟩

theorem mul_safe : ∀ sig ∈ [scalarPairs, [.scalar, .vector], [.vector, .scalar],
    [.scalar, .matrix], [.matrix, .scalar], [.matrix, .matrix], [.matrix, .vector]],
    Evaluation.SafeOn mul sig := by
  simp only [scalarPairs, List.forall_mem_cons]
  exact ⟨Evaluation.safeOn_scalars fun _ s t => mulValues_safe s t,
    Evaluation.safeOn_binary fun _ _ _ _ hb =>
      mulValues_shaped_safe (.inr (Value.isShaped_of_vector hb)),
    Evaluation.safeOn_binary fun _ _ _ ha _ =>
      mulValues_shaped_safe (.inl (Value.isShaped_of_vector ha)),
    Evaluation.safeOn_binary fun _ _ _ _ hb =>
      mulValues_shaped_safe (.inr (Value.isShaped_of_matrix hb)),
    Evaluation.safeOn_binary fun _ _ _ ha _ =>
      mulValues_shaped_safe (.inl (Value.isShaped_of_matrix ha)),
    Evaluation.safeOn_binary fun _ _ _ ha _ =>
      mulValues_shaped_safe (.inl (Value.isShaped_of_matrix ha)),
    Evaluation.safeOn_binary fun _ _ _ ha _ =>
      mulValues_shaped_safe (.inl (Value.isShaped_of_matrix ha)),
    List.forall_mem_nil _⟩

theorem square_safe : ∀ sig ∈ [scalars, [.matrix]], Evaluation.SafeOn square sig := by
  simp only [scalars, List.forall_mem_cons]
  refine ⟨Evaluation.safeOn_scalar fun _ s => mulValues_safe s s,
    Evaluation.safeOn_matrix fun limits d m => ?_, List.forall_mem_nil _⟩
  show Safe Value.Known (mulValues limits (.matrix d m) (.matrix d m))
  exact mulValues_shaped_safe (.inl (.inr ⟨d, m, rfl⟩))

theorem div_safe : ∀ sig ∈ [scalarPairs, [.vector, .scalar], [.matrix, .scalar]],
    Evaluation.SafeOn div sig := by
  simp only [scalarPairs, List.forall_mem_cons]
  refine ⟨Evaluation.safeOn_scalars fun _ s t => divValues_safe s t,
    Evaluation.safeOn_binary fun limits a b ha hb => ?_,
    Evaluation.safeOn_binary fun limits a b ha hb => ?_, List.forall_mem_nil _⟩
  · obtain ⟨t, rfl⟩ := KindSet.contains_scalar.mp hb
    exact divValues_shaped_safe (Value.isShaped_of_vector ha) t
  · obtain ⟨t, rfl⟩ := KindSet.contains_scalar.mp hb
    exact divValues_shaped_safe (Value.isShaped_of_matrix ha) t

theorem inv_safe : Evaluation.SafeOn inv scalars :=
  Evaluation.safeOn_scalar fun _ s => divValues_safe (.int 1) s

theorem floorDiv_safe : Evaluation.SafeOn floorDiv scalarPairs :=
  Evaluation.safeOn_scalars fun _ _ t =>
    (checkDivisor_safe (.scalar t)).bind fun _ _ =>
      (scalarPair_safe _ t).bind fun _ _ => ranked_safe _

theorem floorMod_safe : Evaluation.SafeOn floorMod scalarPairs :=
  Evaluation.safeOn_scalars fun _ _ t =>
    (checkDivisor_safe (.scalar t)).bind fun _ _ =>
      (scalarPair_safe _ t).bind fun _ _ => ranked_safe _

theorem neg_safe : ∀ sig ∈ [scalars, [.vector], [.matrix]], Evaluation.SafeOn neg sig := by
  simp only [scalars, List.forall_mem_cons]
  refine ⟨Evaluation.safeOn_scalar fun limits s => ?_,
    Evaluation.safeOn_vector fun _ d v => Value.known_vector d _,
    Evaluation.safeOn_matrix fun _ d m => Value.known_matrix d _, List.forall_mem_nil _⟩
  cases s with
  | int n => exact settle_safe _
  | bigInt n => exact Value.known_scalar _
  | real x => exact Value.known_scalar _

theorem abs_safe : Evaluation.SafeOn abs scalars := by
  refine Evaluation.safeOn_scalar fun limits s => ?_
  cases s with
  | int n => exact settle_safe _
  | bigInt n => exact Value.known_scalar _
  | real x => exact Value.known_scalar _

theorem sign_safe : Evaluation.SafeOn sign scalars := by
  refine Evaluation.safeOn_scalar fun limits s => ?_
  cases s with
  | int n => exact Value.known_scalar _
  | bigInt n => exact Value.known_scalar _
  | real x => exact Value.known_scalar _

theorem pow_safe : Evaluation.SafeOn pow scalarPairs :=
  Evaluation.safeOn_scalars fun _ s t => powValues_safe s t

theorem sqrt_safe : Evaluation.SafeOn sqrt scalars := by
  refine Evaluation.safeOn_scalar fun limits s => ?_
  cases s with
  | int n => exact integerRoot_safe _ _ _
  | bigInt n => exact integerRoot_safe _ _ _
  | real x => exact Safe.ite rfl (Value.known_scalar _)

theorem min_safe : Evaluation.SafeOn min scalarPairs :=
  Evaluation.safeOn_scalars fun _ s t =>
    Value.known_ite (Value.known_scalar t) (Value.known_scalar s)

theorem max_safe : Evaluation.SafeOn max scalarPairs :=
  Evaluation.safeOn_scalars fun _ s t =>
    Value.known_ite (Value.known_scalar t) (Value.known_scalar s)

end ReversePolish.Arithmetic
