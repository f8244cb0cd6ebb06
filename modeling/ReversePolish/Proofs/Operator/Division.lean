import ReversePolish.Proofs.Operator.Exact
import ReversePolish.Proofs.Operator.Scalars

/-! # Division of integers

The floored quotient of two integers is an integer, with a remainder to it. The quotient itself is
an integer where it is exact, and a real otherwise. How the arguments are represented decides how an
integer result is. -/

namespace ReversePolish

/-! ## The quotient toward negative infinity -/

/-- A quotient with a remainder that is less than the divisor and on the same side of zero. -/
structure IsFloored (m n q r : ℤ) : Prop where
  eq : m = q * n + r
  lt : |r| < |n|
  sign : r = 0 ∨ r.sign = n.sign

theorem isFloored_flooredDivision (m : ℤ) {n : ℤ} (hn : n ≠ 0) :
    IsFloored m n (flooredDivision m n).1 (flooredDivision m n).2 := by
  have heq : m.tdiv n * n + m.tmod n = m := Int.tdiv_mul_add_tmod m n
  have hlt : |m.tmod n| < |n| := by
    rw [Int.abs_eq_natAbs, Int.abs_eq_natAbs, Int.natAbs_tmod]
    exact_mod_cast Nat.mod_lt _ (Int.natAbs_pos.mpr hn)
  unfold flooredDivision
  dsimp only
  generalize m.tdiv n = q at *
  generalize m.tmod n = r at *
  split
  · next hcorrect =>
    have hopposite := (Word.sign_ne_iff hcorrect.1 hn).mp hcorrect.2
    have heq : m = (q - 1) * n + (r + n) := by linarith
    rcases Int.lt_or_gt_of_ne hn with hneg | hpos
    · rw [abs_of_neg hneg, abs_of_pos (by omega)] at hlt
      have hsum : r + n < 0 := by omega
      refine ⟨heq, ?_, .inr ?_⟩
      · rw [abs_of_neg hsum, abs_of_neg hneg]
        omega
      · rw [Int.sign_eq_neg_one_of_neg hsum, Int.sign_eq_neg_one_of_neg hneg]
    · rw [abs_of_pos hpos, abs_of_neg (by omega)] at hlt
      have hsum : 0 < r + n := by omega
      refine ⟨heq, ?_, .inr ?_⟩
      · rw [abs_of_pos hsum, abs_of_pos hpos]
        omega
      · rw [Int.sign_eq_one_of_pos hsum, Int.sign_eq_one_of_pos hpos]
  · next hsame => exact ⟨heq.symm, hlt, by tauto⟩

namespace Word

/-- The quotient of machine integers is the exact one, if that is a machine integer. -/
theorem quotient?_eq {a b : Word} (hb : b ≠ 0) :
    quotient? a b = ofInt? (a.toInt.tdiv b.toInt) := by
  cases hoverflow : divisionOverflows a b with
  | true =>
      obtain ⟨rfl, rfl⟩ : a = Int64.minValue ∧ b = -1 := by
        simpa [divisionOverflows, hb] using hoverflow
      rfl
  | false =>
      have hquotient : quotient? a b = some (a / b) := by rw [quotient?, hoverflow]; rfl
      rw [hquotient, ofInt?_eq_some.mpr (toInt_quotient hquotient)]

theorem mod_eq_zero_iff {a b : Word} : a % b = 0 ↔ b.toInt ∣ a.toInt := by
  rw [← Int64.toInt_inj, Int64.toInt_mod, Int64.toInt_zero, Int.dvd_iff_tmod_eq_zero]

end Word

/-! ## Divisors -/

namespace Value

/-- A zero of any rank, and of either sign. -/
inductive IsZero : Value → Prop where
  | int : IsZero (.int 0)
  | bigInt : IsZero (.bigInt 0)
  | real (negative : Bool) : IsZero (.real (Binary64.zero negative))

theorem IsZero.isZeroScalar {v : Value} (h : v.IsZero) : v.isZeroScalar := by
  cases h with
  | int => rfl
  | bigInt => rfl
  | real negative => cases negative <;> decide +kernel

theorem IsZero.exists_scalar {v : Value} (h : v.IsZero) : ∃ s, v = .scalar s := by
  cases h <;> exact ⟨_, rfl⟩

theorem isZeroScalar_of_integer? {v : Value} {n : ℤ} (h : v.integer? = some n) :
    v.isZeroScalar = decide (n = 0) := by
  rw [← isZeroScalar_widened, widened_of_integer? h]
  rfl

end Value

namespace Arithmetic

variable {limits : Limits}

theorem checkDivisor_eq {t : Scalar} {n : ℤ} (ht : t.integer? = some n) :
    checkDivisor (.scalar t) = if n = 0 then .error .divisionByZero else .ok () := by
  have hzero : (Value.scalar t).isZeroScalar = decide (n = 0) := Value.isZeroScalar_of_integer? ht
  simp only [checkDivisor, hzero, decide_eq_true_eq]

theorem checkDivisor_of_ne {t : Scalar} {n : ℤ} (ht : t.integer? = some n) (hn : n ≠ 0) :
    checkDivisor (.scalar t) = .ok () := by
  rw [checkDivisor_eq ht, if_neg hn]

theorem checkDivisor_of_zero {b : Value} (hb : b.IsZero) :
    checkDivisor b = .error .divisionByZero := by
  rw [checkDivisor, if_pos hb.isZeroScalar]

/-! ## Floored division -/

/-- What is made of the quotient of two integers and of the remainder. -/
structure IsFlooredDivision (limits : Limits) (a b : Value) (m n : ℤ)
    (quotient remainder : Except Error Value) : Prop where
  /-- Those of machine integers are again machine integers, -/
  words : a.kind = .int → b.kind = .int → ¬ (m = -2 ^ 63 ∧ n = -1) → ∃ q r : Word,
    IsFloored m n q.toInt r.toInt ∧ quotient = .ok (.int q) ∧ remainder = .ok (.int r)
  /-- with one exception: there the remainder is zero still, -/
  least : a.kind = .int → b.kind = .int → m = -2 ^ 63 ∧ n = -1 → remainder = .ok (.int 0)
  /-- and the quotient is an integer of any size if overflow promotes, -/
  promoted : a.kind = .int → b.kind = .int → m = -2 ^ 63 ∧ n = -1 →
    limits.promotion = .onOverflow → quotient = .ok (.bigInt (2 ^ 63))
  /-- and an error otherwise. -/
  refused : a.kind = .int → b.kind = .int → m = -2 ^ 63 ∧ n = -1 →
    limits.promotion = .explicit → quotient = .error (.integerOverflow "idiv")
  /-- With an argument of any size so are both. -/
  wide : a.kind = .bigInt ∨ b.kind = .bigInt → ∃ q r : ℤ,
    IsFloored m n q r ∧ quotient = .ok (.bigInt q) ∧ remainder = .ok (.bigInt r)

theorem isFlooredDivision_bigInt {a b : Value} (hwide : a.kind = .bigInt ∨ b.kind = .bigInt) (m : ℤ)
    {n : ℤ} (hn : n ≠ 0) : IsFlooredDivision limits a b m n
      (.ok (.bigInt (flooredDivision m n).1)) (.ok (.bigInt (flooredDivision m n).2)) := by
  have hnot (ha : a.kind = .int) (hb : b.kind = .int) : False := by simp [ha, hb] at hwide
  exact ⟨fun ha hb => (hnot ha hb).elim, fun ha hb => (hnot ha hb).elim,
    fun ha hb => (hnot ha hb).elim, fun ha hb => (hnot ha hb).elim,
    fun _ => ⟨_, _, isFloored_flooredDivision m hn, rfl, rfl⟩⟩

theorem isFlooredDivision_int (a : Word) {b : Word} (hb : b.toInt ≠ 0) :
    IsFlooredDivision limits (.int a) (.int b) a.toInt b.toInt
      (ranked "idiv" limits (fun m n => (Word.flooredDivision? m n).map Prod.fst)
        (fun m n => (flooredDivision m n).1) (fun x y => floor (x / y)) (.int a b))
      (ranked "mod" limits (fun m n => some (((Word.flooredDivision? m n).map Prod.snd).getD 0))
        (fun m n => (flooredDivision m n).2) (fun x y => x - y * floor (x / y)) (.int a b)) := by
  have hwords : ¬ ((Value.int a).kind = .bigInt ∨ (Value.int b).kind = .bigInt) := by
    simp [Value.kind]
  have hfloored := isFloored_flooredDivision a.toInt hb
  cases hdivision : Word.flooredDivision? a b with
  | some qr =>
      obtain ⟨q, r⟩ := qr
      have hleast : ¬ (a.toInt = -2 ^ 63 ∧ b.toInt = -1) := by
        rintro ⟨ha, hb⟩
        obtain rfl : a = Int64.minValue := Int64.toInt_inj.mp ha
        obtain rfl : b = -1 := Int64.toInt_inj.mp hb
        cases hdivision
      rw [← Word.toInt_flooredDivision hdivision] at hfloored
      simp only [ranked, hdivision, Option.map_some, Option.getD_some]
      exact ⟨fun _ _ _ => ⟨q, r, hfloored, rfl, rfl⟩, fun _ _ h => absurd h hleast,
        fun _ _ h => absurd h hleast, fun _ _ h => absurd h hleast, fun h => absurd h hwords⟩
  | none =>
      obtain ⟨rfl, rfl⟩ := Word.overflow_of_flooredDivision_eq_none
        (fun hzero => hb (by rw [hzero]; rfl)) hdivision
      refine ⟨fun _ _ h => absurd ⟨rfl, rfl⟩ h, fun _ _ _ => rfl, fun _ _ _ h => ?_,
        fun _ _ _ h => ?_, fun h => absurd h hwords⟩
      · simp only [ranked, hdivision, Option.map_none, overflowed, h]
        rfl
      · simp only [ranked, hdivision, Option.map_none, overflowed, h]

section Operands

variable {s t : Scalar} {m n : ℤ}

theorem floorDiv_eq (ht : t.integer? = some n) : floorDiv limits [.scalar s, .scalar t] =
    if n = 0 then .error .divisionByZero
    else ranked "idiv" limits (fun m n => (Word.flooredDivision? m n).map Prod.fst)
      (fun m n => (flooredDivision m n).1) (fun x y => floor (x / y)) (Scalar.promote s t) := by
  rw [floorDiv, Operator.binary, checkDivisor_eq ht]
  split <;> rfl

theorem floorMod_eq (ht : t.integer? = some n) : floorMod limits [.scalar s, .scalar t] =
    if n = 0 then .error .divisionByZero
    else ranked "mod" limits (fun m n => some (((Word.flooredDivision? m n).map Prod.snd).getD 0))
      (fun m n => (flooredDivision m n).2) (fun x y => x - y * floor (x / y))
      (Scalar.promote s t) := by
  rw [floorMod, Operator.binary, checkDivisor_eq ht]
  split <;> rfl

theorem isFlooredDivision_floorDiv (hs : s.integer? = some m) (ht : t.integer? = some n)
    (hn : n ≠ 0) : IsFlooredDivision limits (.scalar s) (.scalar t) m n
      (floorDiv limits [.scalar s, .scalar t]) (floorMod limits [.scalar s, .scalar t]) := by
  rw [floorDiv_eq ht, floorMod_eq ht, if_neg hn, if_neg hn]
  rcases Scalar.promote_integers hs ht with ⟨a, b, ⟨rfl, rfl⟩, rfl, rfl⟩ | ⟨hwide, hpair⟩
  · exact isFlooredDivision_int a hn
  · rw [hpair]
    exact isFlooredDivision_bigInt (by simpa using hwide) m hn

end Operands

/-- Zero as a divisor is refused, whatever is to be divided by it. -/
theorem evaluate_of_zero (limits : Limits) (a : Value) {b : Value} (hb : b.IsZero) :
    (div limits [a, b] = .error .divisionByZero ∧ floorDiv limits [a, b] = .error .divisionByZero ∧
      floorMod limits [a, b] = .error .divisionByZero) ∧
      inv limits [b] = .error .divisionByZero := by
  simp only [div, floorDiv, floorMod, inv, Operator.binary, Operator.unary, divValues,
    checkDivisor_of_zero hb]
  exact ⟨⟨rfl, rfl, rfl⟩, rfl⟩

/-! ## Exact quotients -/

/-- A quotient of machine integers that is exact is settled like any other exact result. -/
theorem quotient_int {a b : Word} (hb : b.toInt ≠ 0) : quotient limits (.int a b) =
    if b.toInt ∣ a.toInt then settle "div" limits (a.toInt.tdiv b.toInt)
    else .ok (.real (Binary64.ofInt a.toInt / Binary64.ofInt b.toInt)) := by
  have hb : b ≠ 0 := by
    rintro rfl
    exact hb rfl
  rw [quotient, Word.quotient?_eq hb, settle, if_congr Word.mod_eq_zero_iff rfl rfl]

theorem quotient_bigInt (m n : ℤ) : quotient limits (.bigInt m n) =
    if n ∣ m then .ok (.bigInt (m.tdiv n))
    else .ok (.real (Binary64.ofInt m / Binary64.ofInt n)) := by
  rw [quotient, if_congr Int.dvd_iff_tmod_eq_zero.symm rfl rfl]

section Operands

variable {s t : Scalar} {m n : ℤ} (hs : s.integer? = some m) (ht : t.integer? = some n)
  (hn : n ≠ 0)

include ht hn

theorem divValues_eq :
    divValues limits (.scalar s) (.scalar t) = quotient limits (Scalar.promote s t) := by
  rw [divValues, checkDivisor_of_ne ht hn]
  rfl

include hs

theorem settles_divValues {q : ℤ} (h : m = q * n) :
    Settles "div" limits [.scalar s, .scalar t] q
      (divValues limits (.scalar s) (.scalar t)) := by
  have hdvd : n ∣ m := Dvd.intro_left q h.symm
  obtain rfl : q = m.tdiv n := by rw [h, Int.mul_tdiv_cancel _ hn]
  rw [divValues_eq ht hn]
  rcases Scalar.promote_integers hs ht with ⟨a, b, ⟨rfl, rfl⟩, rfl, rfl⟩ | ⟨⟨v, hv, hwide⟩, hpair⟩
  · rw [Scalar.promote, quotient_int hn, if_pos hdvd]
    exact settles_settle (by simp [Value.kind]) _
  · rw [hpair, quotient_bigInt, if_pos hdvd]
    exact settles_bigInt hv hwide _

theorem divValues_of_not_dvd (h : ¬ n ∣ m) : divValues limits (.scalar s) (.scalar t) =
    .ok (.real (Binary64.ofInt m / Binary64.ofInt n)) := by
  rw [divValues_eq ht hn]
  rcases Scalar.promote_integers hs ht with ⟨a, b, ⟨rfl, rfl⟩, rfl, rfl⟩ | ⟨-, hpair⟩
  · rw [Scalar.promote, quotient_int hn, if_neg h]
  · rw [hpair, quotient_bigInt, if_neg h]

omit hs in
/-- The units are their own reciprocals. -/
theorem inv_eq : inv limits [.scalar t] = .ok (if n = 1 ∨ n = -1 then .scalar t
    else .real (Binary64.ofInt 1 / Binary64.ofInt n)) := by
  have hone : Scalar.integer? (.int 1) = some 1 := rfl
  have hinv : inv limits [.scalar t] = divValues limits (.scalar (.int 1)) (.scalar t) := rfl
  rw [hinv]
  by_cases hunit : n = 1 ∨ n = -1
  · have hself : 1 = n * n := by rcases hunit with rfl | rfl <;> rfl
    have hsettles : Settles "div" limits _ _ _ := settles_divValues hone ht hn hself
    rw [if_pos hunit]
    match t, ht with
    | .int w, rfl =>
        have hfits : -2 ^ 63 ≤ w.toInt ∧ w.toInt < 2 ^ 63 := ⟨w.le_toInt, w.toInt_lt⟩
        obtain ⟨_, hw, hresult⟩ := hsettles.fits (by simp [Value.kind]) hfits
        rw [hresult, Int64.toInt_inj.mp hw]
    | .bigInt _, rfl => exact hsettles.wide ⟨_, List.mem_cons_of_mem _ List.mem_cons_self, rfl⟩
  · have hnot : ¬ n ∣ 1 := fun hdvd => hunit (Int.isUnit_iff.mp (isUnit_of_dvd_one hdvd))
    rw [if_neg hunit]
    exact divValues_of_not_dvd hone ht hn hnot

end Operands

/-! ## The operators -/

/-- Integers have a floored quotient by any other than zero, with a remainder. By a zero nothing is
divided. -/
theorem floored_division {catalog : Catalog} (hcatalog : Catalog.standard = .ok catalog)
    (limits : Limits) :
    ∃ div idiv mod inv, catalog.find? "div" = some div ∧ catalog.find? "idiv" = some idiv ∧
      catalog.find? "mod" = some mod ∧ catalog.find? "inv" = some inv ∧
      (∀ a b m n, a.integer? = some m → b.integer? = some n → n ≠ 0 →
        IsFlooredDivision limits a b m n (idiv.apply limits [a, b]) (mod.apply limits [a, b])) ∧
      ∀ a b, a.isScalar → b.IsZero →
        (∀ op ∈ [div, idiv, mod], op.apply limits [a, b] = .error .divisionByZero) ∧
          inv.apply limits [b] = .error .divisionByZero := by
  refine ⟨operators[3], operators[4], operators[5], operators[11],
    find?_operator hcatalog 3 (by decide), find?_operator hcatalog 4 (by decide),
    find?_operator hcatalog 5 (by decide), find?_operator hcatalog 11 (by decide), ?_, ?_⟩
  · intro a b m n ha hb hn
    obtain ⟨s, rfl, hs⟩ := Value.exists_scalar_of_integer? ha
    obtain ⟨t, rfl, ht⟩ := Value.exists_scalar_of_integer? hb
    rw [apply_two List.mem_cons_self, apply_two List.mem_cons_self]
    exact isFlooredDivision_floorDiv hs ht hn
  · intro a b ha hb
    obtain ⟨s, rfl⟩ := Value.exists_scalar_of_isScalar ha
    obtain ⟨t, rfl⟩ := hb.exists_scalar
    obtain ⟨⟨hdiv, hidiv, hmod⟩, hinv⟩ := evaluate_of_zero limits (.scalar s) hb
    simp only [List.forall_mem_cons]
    rw [apply_two List.mem_cons_self, apply_two List.mem_cons_self, apply_two List.mem_cons_self,
      apply_one List.mem_cons_self]
    exact ⟨⟨hdiv, hidiv, hmod, List.forall_mem_nil _⟩, hinv⟩

/-- The least machine integer by minus one, and by a negative zero. -/
theorem floored_division_of_least_word :
    let catalog := Catalog.standard.toOption.getD .empty
    let least : Value := .int Int64.minValue
    ∃ idiv mod, catalog.find? "idiv" = some idiv ∧ catalog.find? "mod" = some mod ∧
      idiv.apply ⟨.onOverflow, 64⟩ [least, .int (-1)] = .ok (.bigInt (2 ^ 63)) ∧
      mod.apply ⟨.onOverflow, 64⟩ [least, .int (-1)] = .ok (.int 0) ∧
      idiv.apply ⟨.explicit, 64⟩ [least, .int (-1)] = .error (.integerOverflow "idiv") ∧
      mod.apply ⟨.explicit, 64⟩ [least, .int (-1)] = .ok (.int 0) ∧
      mod.apply ⟨.explicit, 64⟩ [least, .real (Binary64.zero true)] =
        .error .divisionByZero := by
  intro catalog least
  obtain ⟨_, idiv, mod, _, -, hidiv, hmod, -, hpromotes, -⟩ :=
    floored_division Catalog.standard_eq ⟨.onOverflow, 64⟩
  obtain ⟨_, _, _, _, -, hidiv', hmod', -, hrefuses, hzero⟩ :=
    floored_division Catalog.standard_eq ⟨.explicit, 64⟩
  obtain rfl := Option.some.inj (hidiv.symm.trans hidiv')
  obtain rfl := Option.some.inj (hmod.symm.trans hmod')
  have hpromotes := hpromotes least (.int (-1)) (-2 ^ 63) (-1) rfl rfl (by decide)
  have hrefuses := hrefuses least (.int (-1)) (-2 ^ 63) (-1) rfl rfl (by decide)
  exact ⟨idiv, mod, hidiv, hmod, hpromotes.promoted rfl rfl ⟨rfl, rfl⟩ rfl,
    hpromotes.least rfl rfl ⟨rfl, rfl⟩, hrefuses.refused rfl rfl ⟨rfl, rfl⟩ rfl,
    hrefuses.least rfl rfl ⟨rfl, rfl⟩, (hzero least _ rfl (.real true)).1 mod (by simp)⟩

/-- The quotient of two integers is an integer where it is exact, settled like other exact results,
and otherwise the quotient of the reals for the two. -/
theorem exact_quotients {catalog : Catalog} (hcatalog : Catalog.standard = .ok catalog)
    (limits : Limits) {a b : Value} {m n : ℤ} (ha : a.integer? = some m)
    (hb : b.integer? = some n) (hn : n ≠ 0) :
    ∃ div inv, catalog.find? "div" = some div ∧ catalog.find? "inv" = some inv ∧
      (∀ q, m = q * n → Settles "div" limits [a, b] q (div.apply limits [a, b])) ∧
      (¬ n ∣ m → div.apply limits [a, b] =
        .ok (.real (Binary64.ofInt m / Binary64.ofInt n))) ∧
      inv.apply limits [b] =
        .ok (if n = 1 ∨ n = -1 then b else .real (Binary64.ofInt 1 / Binary64.ofInt n)) := by
  obtain ⟨s, rfl, hs⟩ := Value.exists_scalar_of_integer? ha
  obtain ⟨t, rfl, ht⟩ := Value.exists_scalar_of_integer? hb
  refine ⟨operators[3], operators[11], find?_operator hcatalog 3 (by decide),
    find?_operator hcatalog 11 (by decide), ?_⟩
  rw [apply_two List.mem_cons_self, apply_one List.mem_cons_self]
  exact ⟨fun q => settles_divValues hs ht hn, divValues_of_not_dvd hs ht hn, inv_eq ht hn⟩

/-- The least machine integer divided by minus one, and the reciprocal of minus one. -/
theorem exact_quotients_of_least_word :
    let catalog := Catalog.standard.toOption.getD .empty
    let args : List Value := [.int Int64.minValue, .int (-1)]
    ∃ div inv, catalog.find? "div" = some div ∧ catalog.find? "inv" = some inv ∧
      div.apply ⟨.onOverflow, 64⟩ args = .ok (.bigInt (2 ^ 63)) ∧
      div.apply ⟨.explicit, 64⟩ args = .error (.integerOverflow "div") ∧
      inv.apply ⟨.explicit, 64⟩ [.int (-1)] = .ok (.int (-1)) := by
  intro catalog args
  have hwords : ∀ a ∈ args, a.kind = .int := by simp [args, Value.kind]
  obtain ⟨div, inv, hdiv, hinv, hpromotes, -⟩ := exact_quotients Catalog.standard_eq
    ⟨.onOverflow, 64⟩ (a := .int Int64.minValue) (b := .int (-1)) rfl rfl (by decide)
  obtain ⟨_, _, hdiv', hinv', hrefuses, -, hunit⟩ := exact_quotients Catalog.standard_eq
    ⟨.explicit, 64⟩ (a := .int Int64.minValue) (b := .int (-1)) rfl rfl (by decide)
  obtain rfl := Option.some.inj (hdiv.symm.trans hdiv')
  obtain rfl := Option.some.inj (hinv.symm.trans hinv')
  rw [if_pos (.inr rfl)] at hunit
  exact ⟨div, inv, hdiv, hinv, (hpromotes (2 ^ 63) rfl).promoted hwords (by decide) rfl,
    (hrefuses (2 ^ 63) rfl).refused hwords (by decide) rfl, hunit⟩

end Arithmetic

end ReversePolish
