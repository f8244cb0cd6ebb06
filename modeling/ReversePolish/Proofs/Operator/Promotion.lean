import ReversePolish.Proofs.Operator.Division
import ReversePolish.Proofs.Operator.Length

/-! # Promotion to integers of any size

If one of two integers may be of any size, both are taken for such before they are added,
subtracted, multiplied or divided, so that nothing overflows. Not so in a power, where nothing but
the base decides. -/

namespace ReversePolish

/-- No machine integer comes out, and no overflow of machine integers. -/
inductive IsWide : Except Error Value → Prop where
  | bigInt (n : ℤ) : IsWide (.ok (.bigInt n))
  | real (x : Float) : IsWide (.ok (.real x))
  | failed {err : Error} (h : err.kind ≠ .integerOverflow) : IsWide (.error err)

theorem IsWide.domain (op : String) (reason : DomainReason) :
    IsWide (.error (.domain op reason)) :=
  .failed nofun

theorem IsWide.divisionByZero : IsWide (.error .divisionByZero) := .failed nofun

theorem IsWide.ite {c : Prop} [Decidable c] {x y : Except Error Value} (hx : IsWide x)
    (hy : IsWide y) : IsWide (if c then x else y) := by
  split
  · exact hx
  · exact hy

/-- An operator takes two integers for such of any size. -/
structure Promotes (op : Operator) (limits : Limits) (a b : Value) (m n : ℤ) : Prop where
  apply_eq : op.apply limits [a, b] = op.apply limits [.bigInt m, .bigInt n]
  isWide : IsWide (op.apply limits [a, b])

theorem Scalar.promote_wide {s t : Scalar} {m n : ℤ} (hs : s.integer? = some m)
    (ht : t.integer? = some n)
    (hwide : (Value.scalar s).kind = .bigInt ∨ (Value.scalar t).kind = .bigInt) :
    promote s t = .bigInt m n := by
  rcases promote_integers hs ht with ⟨a, b, ⟨rfl, -⟩, rfl, -⟩ | ⟨-, hpair⟩
  · simp [Value.kind] at hwide
  · exact hpair

namespace Arithmetic

variable {limits : Limits}

/-! ## By the common rank -/

section Operands

variable {s t : Scalar} {m n : ℤ}

/-- Two integers are promoted if the outcome is read off their common rank. -/
theorem promotes_of_pair {op : Operator} (hop : scalarPairs ∈ op.signatures)
    {outcome : Except Error Value}
    (h : ∀ s t : Scalar, s.integer? = some m → t.integer? = some n →
      Scalar.promote s t = .bigInt m n → op.evaluate limits [.scalar s, .scalar t] = outcome)
    (houtcome : IsWide outcome)
    (hs : s.integer? = some m) (ht : t.integer? = some n)
    (hwide : (Value.scalar s).kind = .bigInt ∨ (Value.scalar t).kind = .bigInt) :
    Promotes op limits (.scalar s) (.scalar t) m n := by
  have happly : op.apply limits [.scalar s, .scalar t] = outcome :=
    (apply_two hop s t).trans (h s t hs ht (Scalar.promote_wide hs ht hwide))
  have hbig : op.apply limits [.bigInt m, .bigInt n] = outcome :=
    (apply_two hop _ _).trans (h (.bigInt m) (.bigInt n) rfl rfl rfl)
  exact ⟨happly.trans hbig.symm, happly ▸ houtcome⟩

variable (hs : s.integer? = some m) (ht : t.integer? = some n)
  (hpair : Scalar.promote s t = .bigInt m n)

include ht hpair

theorem floorDiv_of_wide : floorDiv limits [.scalar s, .scalar t] =
    if n = 0 then .error .divisionByZero else .ok (.bigInt (flooredDivision m n).1) := by
  rw [floorDiv_eq ht, hpair]
  rfl

theorem floorMod_of_wide : floorMod limits [.scalar s, .scalar t] =
    if n = 0 then .error .divisionByZero else .ok (.bigInt (flooredDivision m n).2) := by
  rw [floorMod_eq ht, hpair]
  rfl

include hs

theorem mulValues_of_wide : mulValues limits (.scalar s) (.scalar t) =
    if limits.maxIntegerBits < m.natAbs.size + n.natAbs.size then
      .error (.domain "mul" .resultTooLarge)
    else .ok (.bigInt (m * n)) := by
  rw [mulValues_eq hs ht, hpair]
  rfl

end Operands

/-! ## Powers -/

/-- The representation of the exponent makes no difference. -/
theorem powValues_exponent {s t : Scalar} {m n : ℤ} (hs : s.integer? = some m)
    (ht : t.integer? = some n) :
    powValues limits (.scalar s) (.scalar t) = powValues limits (.scalar s) (.bigInt n) := by
  have hwidened : (Value.scalar t).widened = .bigInt n := Value.widened_of_integer? ht
  have hreal : realPower (.scalar s) (.scalar t) = realPower (.scalar s) (.bigInt n) := by
    rw [realPower, ← Operator.realArg_widened (.scalar t), hwidened]
    rfl
  rw [powValues_integers hs ht, powValues_integers hs (t := .bigInt n) rfl, hreal]

theorem isWide_realPower (s t : Scalar) : IsWide (realPower (.scalar s) (.scalar t)) :=
  .ite .divisionByZero (.ite (.domain _ _) (.real _))

theorem isWide_integerPower (b : ℤ) (e : ℕ) : IsWide (integerPower limits (.bigInt b) b e) := by
  refine .ite (.domain _ _) ?_
  rw [checkBits]
  split
  · exact .domain _ _
  · exact .bigInt _

theorem isWide_powValues {t : Scalar} (m : ℤ) {n : ℤ} (ht : t.integer? = some n) :
    IsWide (powValues limits (.bigInt m) (.scalar t)) := by
  rw [powValues_integers (s := .bigInt m) rfl ht]
  exact .ite (.domain _ _) (.ite (isWide_integerPower m _) (isWide_realPower _ _))

/-! ## The operators -/

/-- Two integers one of which may be of any size are promoted by the operators of arithmetic, with
the exception of powers: these are promoted with their base, and do not depend on how the exponent
is represented. -/
theorem any_size_prevails {catalog : Catalog} (hcatalog : Catalog.standard = .ok catalog)
    (limits : Limits) {a b : Value} {m n : ℤ} (ha : a.integer? = some m)
    (hb : b.integer? = some n) :
    (∀ name ∈ ["add", "sub", "mul", "idiv", "mod"], ∃ op, catalog.find? name = some op ∧
      (a.kind = .bigInt ∨ b.kind = .bigInt → Promotes op limits a b m n)) ∧
    ∃ pow, catalog.find? "pow" = some pow ∧
      (a.kind = .bigInt → Promotes pow limits a b m n) ∧
      pow.apply limits [a, b] = pow.apply limits [a, .bigInt n] := by
  obtain ⟨s, rfl, hs⟩ := Value.exists_scalar_of_integer? ha
  obtain ⟨t, rfl, ht⟩ := Value.exists_scalar_of_integer? hb
  have hfind := find?_operator hcatalog
  refine ⟨?_, operators[8], hfind 8 (by decide), ?_, ?_⟩
  · simp only [List.forall_mem_cons]
    refine ⟨⟨operators[0], hfind 0 (by decide), ?_⟩, ⟨operators[1], hfind 1 (by decide), ?_⟩,
      ⟨operators[2], hfind 2 (by decide), ?_⟩, ⟨operators[4], hfind 4 (by decide), ?_⟩,
      ⟨operators[5], hfind 5 (by decide), ?_⟩, List.forall_mem_nil _⟩
    · refine promotes_of_pair List.mem_cons_self (fun s t _ _ hpair => ?_) (.bigInt (m + n)) hs ht
      exact congrArg (ranked "add" limits (Word.checked (· + ·)) (· + ·) (· + ·)) hpair
    · refine promotes_of_pair List.mem_cons_self (fun s t _ _ hpair => ?_) (.bigInt (m - n)) hs ht
      exact congrArg (ranked "sub" limits (Word.checked (· - ·)) (· - ·) (· - ·)) hpair
    · exact promotes_of_pair List.mem_cons_self (fun _ _ => mulValues_of_wide)
        (.ite (.domain _ _) (.bigInt _)) hs ht
    · exact promotes_of_pair List.mem_cons_self (fun _ _ _ => floorDiv_of_wide)
        (.ite .divisionByZero (.bigInt _)) hs ht
    · exact promotes_of_pair List.mem_cons_self (fun _ _ _ => floorMod_of_wide)
        (.ite .divisionByZero (.bigInt _)) hs ht
  · intro hwide
    match s, hs with
    | .bigInt _, rfl =>
        constructor
        · rw [apply_pow, apply_pow, powValues_exponent rfl ht]
        · rw [apply_pow]
          exact isWide_powValues m ht
    | .int _, _ => cases hwide
  · rw [apply_pow, apply_pow, powValues_exponent hs ht]

/-- The greatest machine integer and one of any size, where overflow does not promote. -/
theorem any_size_prevails_over_greatest_word :
    let catalog := Catalog.standard.toOption.getD .empty
    let limits : Limits := ⟨.explicit, 65536⟩
    ∃ add pow, catalog.find? "add" = some add ∧ catalog.find? "pow" = some pow ∧
      Promotes add limits (.int Int64.maxValue) (.bigInt 1) (2 ^ 63 - 1) 1 ∧
      Promotes pow limits (.bigInt 2) (.int 64) 2 64 ∧
      pow.apply limits [.int 2, .int 64] = pow.apply limits [.int 2, .bigInt 64] := by
  intro catalog limits
  obtain ⟨hoperators, -⟩ := any_size_prevails Catalog.standard_eq limits
    (a := .int Int64.maxValue) (b := .bigInt 1) rfl rfl
  obtain ⟨-, pow, hpow, hpromotes, -⟩ := any_size_prevails Catalog.standard_eq limits
    (a := .bigInt 2) (b := .int 64) rfl rfl
  obtain ⟨-, _, hpow', -, hexponent⟩ := any_size_prevails Catalog.standard_eq limits
    (a := .int 2) (b := .int 64) rfl rfl
  obtain rfl := Option.some.inj (hpow.symm.trans hpow')
  obtain ⟨add, hadd, hsum⟩ := hoperators "add" List.mem_cons_self
  exact ⟨add, pow, hadd, hpow, hsum (.inr rfl), hpromotes rfl, hexponent⟩

/-- A machine integer to a power of any size remains one, and may overflow. -/
theorem wide_exponent_not_promoted :
    let catalog := Catalog.standard.toOption.getD .empty
    ∃ pow, catalog.find? "pow" = some pow ∧
      pow.apply ⟨.onOverflow, 65536⟩ [.int 2, .bigInt 10] = .ok (.int 1024) ∧
      pow.apply ⟨.explicit, 65536⟩ [.int 2, .bigInt 64] = .error (.integerOverflow "pow") :=
  ⟨operators[8], find?_operator Catalog.standard_eq 8 (by decide), rfl, rfl⟩

end Arithmetic

end ReversePolish
