import Mathlib.Data.Nat.Size
import ReversePolish.Proofs.Catalog.Standard
import ReversePolish.Proofs.Value.Word

/-! # Exact integers

Sums, products and signs of integers are computed exactly, whatever the representations of the
arguments. What depends on them is the representation of the result, and whether there is one. -/

namespace ReversePolish

/-! ## Arguments -/

namespace Value

theorem integer?_eq_some {v : Value} {n : ℤ} :
    v.integer? = some n ↔ (∃ w : Word, v = .int w ∧ w.toInt = n) ∨ v = .bigInt n := by
  constructor
  · intro h
    match v with
    | .int w => exact .inl ⟨w, rfl, Option.some.inj h⟩
    | .bigInt m => exact .inr (congrArg Value.bigInt (Option.some.inj h))
  · rintro (⟨w, rfl, rfl⟩ | rfl) <;> rfl

theorem exists_scalar_of_integer? {v : Value} {n : ℤ} (h : v.integer? = some n) :
    ∃ s : Scalar, v = .scalar s ∧ s.integer? = some n := by
  obtain ⟨s, hs, hn⟩ := Option.bind_eq_some_iff.mp h
  match v, hs with
  | .scalar s, rfl => exact ⟨s, rfl, hn⟩

theorem kind_of_integer? {v : Value} {n : ℤ} (h : v.integer? = some n) :
    v.kind ∈ [Kind.int, Kind.bigInt] := by
  obtain ⟨w, rfl, -⟩ | rfl := integer?_eq_some.mp h
  · exact List.mem_cons_self
  · exact List.mem_cons_of_mem _ List.mem_cons_self

end Value

/-- An argument that is an integer is accepted where scalars are. -/
theorem KindSet.scalar_contains {v : Value} {n : ℤ} (h : v.integer? = some n) :
    KindSet.scalar.contains v.kind := by
  have hkind := Value.kind_of_integer? h
  revert hkind
  generalize v.kind = k
  revert k
  decide

theorem Signature.accepts_integers {args : List Value} {ns : List ℤ}
    (h : List.Forall₂ (fun a n => a.integer? = some n) args ns) :
    accepts (List.replicate ns.length KindSet.scalar) (args.map Value.kind) := by
  induction h with
  | nil => rfl
  | cons ha _ ih => simp [List.replicate_succ, accepts, KindSet.scalar_contains ha, ih]

/-! ## Results -/

theorem Word.ofInt?_eq_none {n : ℤ} : ofInt? n = none ↔ ¬ (-2 ^ 63 ≤ n ∧ n < 2 ^ 63) := by
  have hmin : Int64.minValue.toInt = -2 ^ 63 := rfl
  have hmax : Int64.maxValue.toInt = 2 ^ 63 - 1 := rfl
  simp only [ofInt?, hmin, hmax, ite_eq_right_iff, reduceCtorEq, imp_false]
  omega

/-- What is made of the exact result of an operation on integers. -/
structure Settles (op : String) (limits : Limits) (args : List Value) (n : ℤ)
    (r : Except Error Value) : Prop where
  /-- A result of machine integers that fits is one. -/
  fits : (∀ a ∈ args, a.kind = .int) → -2 ^ 63 ≤ n ∧ n < 2 ^ 63 →
    ∃ w : Word, w.toInt = n ∧ r = .ok (.int w)
  /-- One that does not fit is an integer of any size if overflow promotes, -/
  promoted : (∀ a ∈ args, a.kind = .int) → ¬ (-2 ^ 63 ≤ n ∧ n < 2 ^ 63) →
    limits.promotion = .onOverflow → r = .ok (.bigInt n)
  /-- and an error otherwise. -/
  refused : (∀ a ∈ args, a.kind = .int) → ¬ (-2 ^ 63 ≤ n ∧ n < 2 ^ 63) →
    limits.promotion = .explicit → r = .error (.integerOverflow op)
  /-- A result of integers of any size is one, even where it would fit. -/
  wide : (∃ a ∈ args, a.kind = .bigInt) → r = .ok (.bigInt n)

namespace Settles

variable {op : String} {limits : Limits} {args : List Value} {n : ℤ} {r : Except Error Value}

theorem congr {args' : List Value} (h : Settles op limits args n r)
    (hargs : ∀ a, a ∈ args ↔ a ∈ args') : Settles op limits args' n r := by
  constructor
  · simpa only [hargs] using h.fits
  · simpa only [hargs] using h.promoted
  · simpa only [hargs] using h.refused
  · simpa only [hargs] using h.wide

/-- The exact result of an operation on integers is one, or it overflows. -/
theorem ok_or_overflow (h : Settles op limits args n r)
    (hargs : ∀ a ∈ args, a.kind ∈ [Kind.int, Kind.bigInt]) :
    (∃ v, r = .ok v) ∨ r = .error (.integerOverflow op) := by
  by_cases hwide : ∃ a ∈ args, a.kind = .bigInt
  · exact .inl ⟨_, h.wide hwide⟩
  · have hwords : ∀ a ∈ args, a.kind = .int := by
      intro a ha
      have hkind := hargs a ha
      simp only [List.mem_cons, List.not_mem_nil, or_false] at hkind
      exact hkind.resolve_right fun hbig => hwide ⟨a, ha, hbig⟩
    by_cases hfits : -2 ^ 63 ≤ n ∧ n < 2 ^ 63
    · obtain ⟨w, -, hr⟩ := h.fits hwords hfits
      exact .inl ⟨_, hr⟩
    · cases hpromotion : limits.promotion with
      | onOverflow => exact .inl ⟨_, h.promoted hwords hfits hpromotion⟩
      | explicit => exact .inr (h.refused hwords hfits hpromotion)

/-- An exact result is not refused for its length. -/
theorem kind_ne_domain (h : Settles op limits args n r)
    (hargs : ∀ a ∈ args, a.kind ∈ [Kind.int, Kind.bigInt]) {err : Error} (hr : r = .error err) :
    err.kind ≠ .domain := by
  rcases h.ok_or_overflow hargs with ⟨v, rfl⟩ | rfl
  · cases hr
  · cases hr
    nofun

end Settles

namespace Arithmetic

variable {op : String} {limits : Limits} {args : List Value}

theorem settles_settle (hargs : ∀ a ∈ args, a.kind = .int) (n : ℤ) :
    Settles op limits args n (settle op limits n) := by
  have hnarrow : ¬ ∃ a ∈ args, a.kind = .bigInt := by
    rintro ⟨a, ha, hkind⟩
    rw [hargs a ha] at hkind
    cases hkind
  cases hn : Word.ofInt? n with
  | some w =>
      have hfits : -2 ^ 63 ≤ n ∧ n < 2 ^ 63 := by
        by_contra hnot
        rw [Word.ofInt?_eq_none.mpr hnot] at hn
        cases hn
      simp only [settle, hn]
      exact ⟨fun _ _ => ⟨w, Word.ofInt?_eq_some.mp hn, rfl⟩, fun _ hnot => absurd hfits hnot,
        fun _ hnot => absurd hfits hnot, fun hwide => absurd hwide hnarrow⟩
  | none =>
      have hnot := Word.ofInt?_eq_none.mp hn
      simp only [settle, hn, overflowed]
      exact ⟨fun _ hfits => absurd hfits hnot, fun _ _ hpromotion => by rw [hpromotion],
        fun _ _ hpromotion => by rw [hpromotion], fun hwide => absurd hwide hnarrow⟩

theorem settles_bigInt {a : Value} (ha : a ∈ args) (hkind : a.kind = .bigInt) (n : ℤ) :
    Settles op limits args n (.ok (.bigInt n)) := by
  have hnot : ¬ ∀ a ∈ args, a.kind = .int := fun hall => by simp [hall a ha] at hkind
  exact ⟨fun hall => absurd hall hnot, fun hall => absurd hall hnot, fun hall => absurd hall hnot,
    fun _ => rfl⟩

theorem settles_one (f : Evaluation) (exact : ℤ → ℤ)
    (hword : ∀ w : Word, f limits [.int w] = settle op limits (exact w.toInt))
    (hbig : ∀ n, f limits [.bigInt n] = .ok (.bigInt (exact n))) {s : Scalar} {n : ℤ}
    (hs : s.integer? = some n) :
    Settles op limits [.scalar s] (exact n) (f limits [.scalar s]) := by
  match s, hs with
  | .int w, rfl =>
      rw [hword]
      exact settles_settle (by simp [Value.kind]) _
  | .bigInt _, rfl =>
      rw [hbig]
      exact settles_bigInt List.mem_cons_self rfl _

/-- Whatever the representations, the common rank is one of integers. -/
theorem settles_ranked {s t : Scalar} {m n : ℤ} (hs : s.integer? = some m)
    (ht : t.integer? = some n) (exact : ℤ → ℤ → ℤ) (approximate : Float → Float → Float) :
    Settles op limits [.scalar s, .scalar t] (exact m n)
      (ranked op limits (Word.checked exact) exact approximate (Scalar.promote s t)) := by
  match s, t, hs, ht with
  | .int a, .int b, rfl, rfl => exact settles_settle (by simp [Value.kind]) _
  | .int a, .bigInt _, rfl, rfl =>
      exact settles_bigInt (List.mem_cons_of_mem _ List.mem_cons_self) rfl _
  | .bigInt _, .int _, rfl, rfl => exact settles_bigInt List.mem_cons_self rfl _
  | .bigInt _, .bigInt _, rfl, rfl => exact settles_bigInt List.mem_cons_self rfl _

theorem bitLength_eq_size (n : ℤ) : bitLength n = n.natAbs.size := by
  refine eq_of_forall_ge_iff fun k => ?_
  rw [Nat.size_le, bitLength]
  split
  · next hzero => simp [hzero]
  · next hne =>
    rw [Nat.succ_le_iff, Nat.log2_lt (Int.natAbs_ne_zero.mpr hne)]

theorem checkProduct_eq {a b : Value} {m n : ℤ} (ha : a.integer? = some m)
    (hb : b.integer? = some n) : checkProduct limits a b =
      if limits.maxIntegerBits < m.natAbs.size + n.natAbs.size then
        .error (.domain "mul" .resultTooLarge)
      else .ok () := by
  simp only [checkProduct, ha, hb, checkBits, bitLength_eq_size]

/-- The product of two integers, unless they are too long together. -/
theorem mulValues_eq {s t : Scalar} {m n : ℤ} (hs : s.integer? = some m)
    (ht : t.integer? = some n) : mulValues limits (.scalar s) (.scalar t) =
      if limits.maxIntegerBits < m.natAbs.size + n.natAbs.size then
        .error (.domain "mul" .resultTooLarge)
      else ranked "mul" limits (Word.checked (· * ·)) (· * ·) (· * ·) (Scalar.promote s t) := by
  have hcheck : checkProduct limits (.scalar s) (.scalar t) = _ := checkProduct_eq hs ht
  have hscalars : (Value.isScalar (.scalar s) && Value.isScalar (.scalar t)) = true := rfl
  rw [mulValues, if_pos hscalars, hcheck]
  split <;> rfl

end Arithmetic

/-! ## Calculations -/

/-- An operation on integers and what it is applied to. -/
inductive Calculation where
  | add (m n : ℤ)
  | sub (m n : ℤ)
  | mul (m n : ℤ)
  | neg (n : ℤ)
  | abs (n : ℤ)
  | square (n : ℤ)

namespace Calculation

def name : Calculation → String
  | add _ _ => "add"
  | sub _ _ => "sub"
  | mul _ _ => "mul"
  | neg _ => "neg"
  | abs _ => "abs"
  | square _ => "sq"

def arguments : Calculation → List ℤ
  | add m n | sub m n | mul m n => [m, n]
  | neg n | abs n | square n => [n]

/-- The integer that is to be computed. -/
def result : Calculation → ℤ
  | add m n => m + n
  | sub m n => m - n
  | mul m n => m * n
  | neg n => -n
  | abs n => |n|
  | square n => n ^ 2

/-- The factors of a product. -/
def factors? : Calculation → Option (ℤ × ℤ)
  | mul m n => some (m, n)
  | square n => some (n, n)
  | _ => none

/-- The name in its errors. A square is refused as a product. -/
def reported : Calculation → String
  | square _ => "mul"
  | c => c.name

/-- There are more bits in its factors together than a product may have. -/
def Oversized (c : Calculation) (limits : Limits) : Prop :=
  ∃ m n, c.factors? = some (m, n) ∧ limits.maxIntegerBits < m.natAbs.size + n.natAbs.size

def evaluation : Calculation → Evaluation
  | add _ _ => Arithmetic.add
  | sub _ _ => Arithmetic.sub
  | mul _ _ => Arithmetic.mul
  | neg _ => Arithmetic.neg
  | abs _ => Arithmetic.abs
  | square _ => Arithmetic.square

theorem exists_operator (c : Calculation) :
    ∃ op ∈ Arithmetic.operators, op.name = c.name ∧ op.evaluate = c.evaluation ∧
      List.replicate c.arguments.length KindSet.scalar ∈ op.signatures := by
  cases c with
  | add => exact ⟨Arithmetic.operators[0], List.getElem_mem _, rfl, rfl, List.mem_cons_self⟩
  | sub => exact ⟨Arithmetic.operators[1], List.getElem_mem _, rfl, rfl, List.mem_cons_self⟩
  | mul => exact ⟨Arithmetic.operators[2], List.getElem_mem _, rfl, rfl, List.mem_cons_self⟩
  | neg => exact ⟨Arithmetic.operators[6], List.getElem_mem _, rfl, rfl, List.mem_cons_self⟩
  | abs => exact ⟨Arithmetic.operators[7], List.getElem_mem _, rfl, rfl, List.mem_cons_self⟩
  | square => exact ⟨Arithmetic.operators[9], List.getElem_mem _, rfl, rfl, List.mem_cons_self⟩

/-- What comes of a calculation: a refusal if its factors are too long, and else the exact result,
settled. -/
structure IsCarriedOut (c : Calculation) (limits : Limits) (args : List Value)
    (r : Except Error Value) : Prop where
  oversized : c.Oversized limits → r = .error (.domain "mul" .resultTooLarge)
  settled : ¬ c.Oversized limits → Settles c.reported limits args c.result r

variable {c : Calculation} {limits : Limits} {args : List Value}

theorem isCarriedOut_of_no_factors {r : Except Error Value} (hfactors : c.factors? = none)
    (h : Settles c.reported limits args c.result r) : c.IsCarriedOut limits args r :=
  ⟨fun ⟨m, n, hsome, _⟩ => by simp [hfactors] at hsome, fun _ => h⟩

theorem isCarriedOut_of_factors {r : Except Error Value} {m n : ℤ}
    (hfactors : c.factors? = some (m, n))
    (h : Settles c.reported limits args c.result r) :
    c.IsCarriedOut limits args (if limits.maxIntegerBits < m.natAbs.size + n.natAbs.size then
      .error (.domain "mul" .resultTooLarge) else r) := by
  have hsize : c.Oversized limits ↔ limits.maxIntegerBits < m.natAbs.size + n.natAbs.size := by
    simp [Oversized, hfactors]
  constructor
  · intro hover
    rw [if_pos (hsize.mp hover)]
  · intro hnot
    rwa [if_neg (mt hsize.mpr hnot)]

/-- The arguments are integers, in whatever representation. -/
def AppliesTo (c : Calculation) (args : List Value) : Prop :=
  List.Forall₂ (fun a n => a.integer? = some n) args c.arguments

theorem AppliesTo.one {n : ℤ} (h : c.AppliesTo args) (hc : c.arguments = [n]) :
    ∃ s : Scalar, args = [.scalar s] ∧ s.integer? = some n := by
  rw [AppliesTo, hc, List.forall₂_cons_right_iff] at h
  obtain ⟨a, _, ha, hnil, rfl⟩ := h
  obtain rfl := List.forall₂_nil_right_iff.mp hnil
  obtain ⟨s, rfl, hs⟩ := Value.exists_scalar_of_integer? ha
  exact ⟨s, rfl, hs⟩

theorem AppliesTo.two {m n : ℤ} (h : c.AppliesTo args) (hc : c.arguments = [m, n]) :
    ∃ s t : Scalar, args = [.scalar s, .scalar t] ∧ s.integer? = some m ∧ t.integer? = some n := by
  rw [AppliesTo, hc, List.forall₂_cons_right_iff] at h
  obtain ⟨a, _, ha, hrest, rfl⟩ := h
  obtain ⟨b, _, hb, hnil, rfl⟩ := List.forall₂_cons_right_iff.mp hrest
  obtain rfl := List.forall₂_nil_right_iff.mp hnil
  obtain ⟨s, rfl, hs⟩ := Value.exists_scalar_of_integer? ha
  obtain ⟨t, rfl, ht⟩ := Value.exists_scalar_of_integer? hb
  exact ⟨s, t, rfl, hs, ht⟩

theorem isCarriedOut_evaluation (h : c.AppliesTo args) :
    c.IsCarriedOut limits args (c.evaluation limits args) := by
  cases c with
  | add m n =>
      obtain ⟨s, t, rfl, hs, ht⟩ := h.two rfl
      exact isCarriedOut_of_no_factors rfl (Arithmetic.settles_ranked hs ht (· + ·) (· + ·))
  | sub m n =>
      obtain ⟨s, t, rfl, hs, ht⟩ := h.two rfl
      exact isCarriedOut_of_no_factors rfl (Arithmetic.settles_ranked hs ht (· - ·) (· - ·))
  | mul m n =>
      obtain ⟨s, t, rfl, hs, ht⟩ := h.two rfl
      have hvalue : (mul m n).evaluation limits [.scalar s, .scalar t] = _ :=
        Arithmetic.mulValues_eq hs ht
      rw [hvalue]
      exact isCarriedOut_of_factors rfl (Arithmetic.settles_ranked hs ht (· * ·) (· * ·))
  | neg n =>
      obtain ⟨s, rfl, hs⟩ := h.one rfl
      exact isCarriedOut_of_no_factors rfl
        (Arithmetic.settles_one Arithmetic.neg (-·) (fun _ => rfl) (fun _ => rfl) hs)
  | abs n =>
      obtain ⟨s, rfl, hs⟩ := h.one rfl
      have hresult : (abs n).result = n.natAbs := Int.abs_eq_natAbs n
      refine isCarriedOut_of_no_factors rfl (hresult ▸ ?_)
      exact Arithmetic.settles_one Arithmetic.abs (·.natAbs) (fun _ => rfl) (fun _ => rfl) hs
  | square n =>
      obtain ⟨s, rfl, hs⟩ := h.one rfl
      have hvalue : (square n).evaluation limits [.scalar s] = _ := Arithmetic.mulValues_eq hs hs
      rw [hvalue]
      refine isCarriedOut_of_factors rfl ?_
      rw [result, pow_two]
      exact (Arithmetic.settles_ranked hs hs (· * ·) (· * ·)).congr (by simp)

/-- The operators compute integers exactly, in either representation of each argument. A product is
refused just if its factors are too long together; a result is kept in the representation of the
arguments, and where it does not fit the promotion decides. -/
theorem integers_are_exact {catalog : Catalog} (hcatalog : Catalog.standard = .ok catalog)
    (c : Calculation) (limits : Limits) {args : List Value} (h : c.AppliesTo args) :
    ∃ op, catalog.find? c.name = some op ∧ c.IsCarriedOut limits args (op.apply limits args) := by
  obtain ⟨op, hop, hname, hevaluate, hsignature⟩ := c.exists_operator
  have hassembled : catalog.Assembled :=
    Catalog.assembled_of_ofLibraries (fun _ hlib => hlib) hcatalog
  have hmem : op ∈ catalog.operators := by
    rw [Catalog.operators_of_standard hcatalog]
    exact List.mem_flatMap_of_mem List.mem_cons_self hop
  refine ⟨op, hname ▸ hassembled.find?_name hmem, ?_⟩
  have haccepts : op.accepts (args.map Value.kind) :=
    List.any_eq_true.mpr ⟨_, hsignature, Signature.accepts_integers h⟩
  rw [Operator.apply, if_pos haccepts, hevaluate]
  exact isCarriedOut_evaluation h

/-- The least machine integer times minus one. -/
theorem integers_are_exact_at_least_word :
    let catalog := Catalog.standard.toOption.getD .empty
    let c := mul (-2 ^ 63) (-1)
    let args : List Value := [.int Int64.minValue, .int (-1)]
    c.AppliesTo args ∧ ∃ op, catalog.find? "mul" = some op ∧
      op.apply ⟨.onOverflow, 65⟩ args = .ok (.bigInt (2 ^ 63)) ∧
      op.apply ⟨.explicit, 65⟩ args = .error (.integerOverflow "mul") ∧
      op.apply ⟨.onOverflow, 64⟩ args = .error (.domain "mul" .resultTooLarge) := by
  intro catalog c args
  have hargs : c.AppliesTo args := .cons rfl (.cons rfl .nil)
  have hwords : ∀ a ∈ args, a.kind = .int := by simp [args, Value.kind]
  have hbits : (-2 ^ 63 : ℤ).natAbs.size + (-1 : ℤ).natAbs.size = 65 := by
    rw [show (-2 ^ 63 : ℤ).natAbs = 2 ^ 63 from rfl, Nat.size_pow]
    rfl
  have hwithin (promotion : Promotion) : ¬ c.Oversized ⟨promotion, 65⟩ := by
    rintro ⟨m, n, hfactors, hover⟩
    obtain ⟨rfl, rfl⟩ := Prod.mk.inj (Option.some.inj hfactors)
    exact hover.ne hbits.symm
  have hover : c.Oversized ⟨.onOverflow, 64⟩ := ⟨_, _, rfl, Nat.lt_of_succ_le hbits.ge⟩
  obtain ⟨op, hop, hpromotes⟩ := integers_are_exact Catalog.standard_eq c ⟨.onOverflow, 65⟩ hargs
  obtain ⟨_, hop', hrefuses⟩ := integers_are_exact Catalog.standard_eq c ⟨.explicit, 65⟩ hargs
  obtain rfl := Option.some.inj (hop.symm.trans hop')
  obtain ⟨_, hop', hlong⟩ := integers_are_exact Catalog.standard_eq c ⟨.onOverflow, 64⟩ hargs
  obtain rfl := Option.some.inj (hop.symm.trans hop')
  exact ⟨hargs, op, hop, (hpromotes.settled (hwithin _)).promoted hwords (by decide) rfl,
    (hrefuses.settled (hwithin _)).refused hwords (by decide) rfl, hlong.oversized hover⟩

end Calculation

end ReversePolish
