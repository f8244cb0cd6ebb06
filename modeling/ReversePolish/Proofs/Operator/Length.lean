import Mathlib.Data.Nat.Size
import ReversePolish.Proofs.Operator.Exact
import ReversePolish.Proofs.Operator.Scalars

/-! # The length of products and powers

Before a product or a power of integers is computed, its length is estimated from those of the
arguments. The estimates are close enough that what is computed is never much longer than allowed,
and what is refused would have been no shorter. -/

namespace ReversePolish

/-! ## Lengths -/

section Size

variable {m n b e bits : ℕ}

theorem two_pow_size_sub_one_le (hn : n ≠ 0) : 2 ^ (n.size - 1) ≤ n := by
  have hsize := Nat.size_pos.mpr (Nat.pos_of_ne_zero hn)
  exact Nat.lt_size.mp (by omega)

theorem size_mul_le (m n : ℕ) : (m * n).size ≤ m.size + n.size := by
  rw [Nat.size_le, pow_add]
  exact Nat.mul_lt_mul'' m.lt_size_self n.lt_size_self

theorem size_add_size_le (hm : m ≠ 0) (hn : n ≠ 0) : m.size + n.size ≤ (m * n).size + 1 := by
  have hlong : m.size - 1 + (n.size - 1) < (m * n).size := by
    rw [Nat.lt_size, pow_add]
    exact Nat.mul_le_mul (two_pow_size_sub_one_le hm) (two_pow_size_sub_one_le hn)
  omega

theorem size_pow_le (b : ℕ) (he : e ≠ 0) : (b ^ e).size ≤ b.size * e := by
  rw [Nat.size_le, pow_mul]
  exact Nat.pow_lt_pow_left b.lt_size_self he

theorem two_pow_le_pow (hb : b ≠ 0) (e : ℕ) : 2 ^ ((b.size - 1) * e) ≤ b ^ e := by
  rw [pow_mul]
  exact Nat.pow_le_pow_left (two_pow_size_sub_one_le hb) e

/-- From two bits on, a length is at most twice what is left of it without the leading bit. -/
theorem size_pow_le_of_le (hbits : 1 ≤ bits) (h : (b.size - 1) * e ≤ bits) :
    (b ^ e).size ≤ 2 * bits := by
  -- The powers of zero and one have one bit at most, of which the estimate counts none.
  rcases Nat.lt_or_ge b.size 2 with hshort | hlong
  · have hb : b ≤ 1 := Nat.lt_succ_iff.mp (Nat.size_le.mp (Nat.lt_succ_iff.mp hshort))
    have hpow : b ^ e ≤ 1 := by simpa using Nat.pow_le_pow_left hb e
    calc (b ^ e).size ≤ (1 : ℕ).size := Nat.size_le_size hpow
      _ = 1 := Nat.size_one
      _ ≤ 2 * bits := by omega
  · rcases eq_or_ne e 0 with rfl | he
    · rw [pow_zero, Nat.size_one]
      omega
    · calc (b ^ e).size ≤ b.size * e := size_pow_le b he
        _ ≤ 2 * (b.size - 1) * e := Nat.mul_le_mul_right e (by omega)
        _ = 2 * ((b.size - 1) * e) := mul_assoc _ _ _
        _ ≤ 2 * bits := Nat.mul_le_mul_left 2 h

end Size

/-! ## Outcomes -/

/-- What comes of the product of two integers. -/
structure IsLimitedProduct (limits : Limits) (a b : Value) (m n : ℤ) (r : Except Error Value) :
    Prop where
  /-- A product that is not refused has no more bits than allowed. -/
  settled : r ≠ .error (.domain "mul" .resultTooLarge) →
    Settles "mul" limits [a, b] (m * n) r ∧ (m * n).natAbs.size ≤ limits.maxIntegerBits
  /-- One that is refused has no less, unless a factor is zero. -/
  refused : r = .error (.domain "mul" .resultTooLarge) → m ≠ 0 → n ≠ 0 →
    limits.maxIntegerBits ≤ (m * n).natAbs.size

/-- What comes of the power of an integer. It is the representation of the base that counts. -/
structure IsLimitedPower (limits : Limits) (base : Value) (b : ℤ) (e : ℕ)
    (r : Except Error Value) : Prop where
  /-- A power that is not refused has no more than twice the bits allowed. -/
  settled : r ≠ .error (.domain "pow" .resultTooLarge) →
    Settles "pow" limits [base] (b ^ e) r ∧ (b ^ e).natAbs.size ≤ 2 * limits.maxIntegerBits
  /-- One that is refused has more bits than allowed. -/
  refused : r = .error (.domain "pow" .resultTooLarge) →
    2 ^ (limits.maxIntegerBits + 1) ≤ (b ^ e).natAbs

namespace Arithmetic

variable {limits : Limits} {s t : Scalar}

/-! ## Products -/

theorem isLimitedProduct_mulValues {m n : ℤ} (hs : s.integer? = some m) (ht : t.integer? = some n) :
    IsLimitedProduct limits (.scalar s) (.scalar t) m n
      (mulValues limits (.scalar s) (.scalar t)) := by
  have hsettles : Settles "mul" limits [.scalar s, .scalar t] (m * n) _ :=
    settles_ranked hs ht (· * ·) (· * ·)
  have hkinds : ∀ a ∈ [Value.scalar s, .scalar t], a.kind ∈ [Kind.int, Kind.bigInt] := by
    have ha : (Value.scalar s).integer? = some m := hs
    have hb : (Value.scalar t).integer? = some n := ht
    simp only [List.forall_mem_cons]
    exact ⟨Value.kind_of_integer? ha, Value.kind_of_integer? hb, List.forall_mem_nil _⟩
  have hlength : (m * n).natAbs.size ≤ m.natAbs.size + n.natAbs.size := by
    rw [Int.natAbs_mul]
    exact size_mul_le _ _
  rw [mulValues_eq hs ht]
  split
  · next hlong =>
    refine ⟨fun hnot => absurd rfl hnot, fun _ hm hn => ?_⟩
    have hshort := size_add_size_le (Int.natAbs_ne_zero.mpr hm) (Int.natAbs_ne_zero.mpr hn)
    rw [Int.natAbs_mul]
    omega
  · next hshort =>
    exact ⟨fun _ => ⟨hsettles, by omega⟩,
      fun hrefused => absurd rfl (hsettles.kind_ne_domain hkinds hrefused)⟩

/-! ## Powers -/

/-- Integers have the power of reals if the exponent is negative. -/
theorem powValues_integers {b e : ℤ} (hs : s.integer? = some b) (ht : t.integer? = some e) :
    powValues limits (.scalar s) (.scalar t) =
      if (Word.ofInt? e).isNone then .error (.domain "pow" .exponentTooLarge)
      else if 0 ≤ e then integerPower limits s b e.toNat
      else realPower (.scalar s) (.scalar t) := by
  have hbase : (Value.scalar s).integer? = some b := hs
  have hexponent : (Value.scalar t).integer? = some e := ht
  simp only [powValues, hbase, hexponent]

theorem integerPower_of_large (s : Scalar) (b : ℤ) {e : ℕ} (he : exponentBound ≤ e) :
    integerPower limits s b e = .error (.domain "pow" .exponentTooLarge) := by
  unfold integerPower
  rw [if_pos he]

/-- Exponents that are no machine integers are too large in any case. -/
theorem powValues_natural {b : ℤ} {e : ℕ} (hs : s.integer? = some b)
    (ht : t.integer? = some (e : ℤ)) :
    powValues limits (.scalar s) (.scalar t) = integerPower limits s b e := by
  rw [powValues_integers hs ht, if_pos (Int.natCast_nonneg e), Int.toNat_natCast]
  split
  · next hnone =>
    have hlarge := Word.ofInt?_eq_none.mp (Option.isNone_iff_eq_none.mp hnone)
    have hbound : exponentBound ≤ e := by
      rw [exponentBound, UInt32.size]
      omega
    exact (integerPower_of_large s b hbound).symm
  · rfl

theorem integerPower_of_long (s : Scalar) {b : ℤ} {e : ℕ} (he : e < exponentBound)
    (hlong : limits.maxIntegerBits < (b.natAbs.size - 1) * e) :
    integerPower limits s b e = .error (.domain "pow" .resultTooLarge) := by
  unfold integerPower
  rw [if_neg (Nat.not_le.mpr he), checkBits, bitLength_eq_size, if_pos hlong]
  rfl

/-- What is not too long by the estimate is computed. -/
theorem settles_integerPower {b : ℤ} {e : ℕ} (hs : s.integer? = some b) (he : e < exponentBound)
    (hshort : (b.natAbs.size - 1) * e ≤ limits.maxIntegerBits) :
    Settles "pow" limits [.scalar s] (b ^ e) (integerPower limits s b e) := by
  unfold integerPower
  rw [if_neg (Nat.not_le.mpr he), checkBits, bitLength_eq_size, if_neg (Nat.not_lt.mpr hshort)]
  cases s with
  | int w => exact settles_settle (by simp [Value.kind]) _
  | bigInt n =>
    obtain rfl : n = b := Option.some.inj hs
    exact settles_bigInt List.mem_cons_self rfl _
  | real x => cases hs

/-- An exponent that is not too large is refused only if the power is. -/
theorem two_pow_le_of_refused {b : ℤ} {e : ℕ} (hs : s.integer? = some b) (he : e < exponentBound)
    {err : Error} (h : integerPower limits s b e = .error err) (hkind : err.kind = .domain) :
    2 ^ (limits.maxIntegerBits + 1) ≤ (b ^ e).natAbs := by
  have hlong : limits.maxIntegerBits < (b.natAbs.size - 1) * e := by
    by_contra hshort
    have hbase : (Value.scalar s).kind ∈ [Kind.int, Kind.bigInt] :=
      Value.kind_of_integer? (v := .scalar s) hs
    have hsettles := settles_integerPower hs he (Nat.not_lt.mp hshort)
    exact hsettles.kind_ne_domain (List.forall_mem_singleton.mpr hbase) h hkind
  have hb : b.natAbs ≠ 0 := by
    intro hzero
    simp [hzero] at hlong
  rw [Int.natAbs_pow]
  exact (Nat.pow_le_pow_right two_pos hlong).trans (two_pow_le_pow hb e)

theorem isLimitedPower_integerPower (hlimit : 1 ≤ limits.maxIntegerBits) {b : ℤ} {e : ℕ}
    (hs : s.integer? = some b) (he : e < exponentBound) :
    IsLimitedPower limits (.scalar s) b e (integerPower limits s b e) := by
  refine ⟨fun hnot => ?_, fun hrefused => two_pow_le_of_refused hs he hrefused rfl⟩
  have hshort : (b.natAbs.size - 1) * e ≤ limits.maxIntegerBits :=
    Nat.not_lt.mp fun hlong => hnot (integerPower_of_long s he hlong)
  refine ⟨settles_integerPower hs he hshort, ?_⟩
  rw [Int.natAbs_pow]
  exact size_pow_le_of_le hlimit hshort

/-- With a base of two bits or more, even a limit of all exponents there are is exceeded. -/
theorem lt_size_pow_of_large {b : ℤ} {e : ℕ} (hb : 1 < |b|) (he : limits.maxIntegerBits ≤ e) :
    limits.maxIntegerBits < (b ^ e).natAbs.size := by
  have hbase : 2 ^ 1 ≤ b.natAbs := by
    rw [Int.abs_eq_natAbs] at hb
    exact_mod_cast hb
  have hsize : 1 ≤ b.natAbs.size - 1 := Nat.le_sub_one_of_lt (Nat.lt_size.mpr hbase)
  have hne : b.natAbs ≠ 0 := (two_pos.trans_le hbase).ne'
  rw [Int.natAbs_pow]
  calc limits.maxIntegerBits ≤ 1 * e := by omega
    _ ≤ (b.natAbs.size - 1) * e := Nat.mul_le_mul_right e hsize
    _ < (b.natAbs ^ e).size := Nat.lt_size.mpr (two_pow_le_pow hne e)

/-! ## The operators -/

theorem apply_pow (s t : Scalar) : operators[8].apply limits [.scalar s, .scalar t] =
    powValues limits (.scalar s) (.scalar t) :=
  apply_two List.mem_cons_self s t

/-- The limit on the length of integers is kept, up to a factor of two by powers, and nothing is
refused that is shorter. -/
theorem length_limit_is_tight {catalog : Catalog} (hcatalog : Catalog.standard = .ok catalog)
    (limits : Limits) (hlimit : 1 ≤ limits.maxIntegerBits) {a b : Value} {m n : ℤ}
    (ha : a.integer? = some m) (hb : b.integer? = some n) :
    ∃ mul pow, catalog.find? "mul" = some mul ∧ catalog.find? "pow" = some pow ∧
      IsLimitedProduct limits a b m n (mul.apply limits [a, b]) ∧
      ∀ e : ℕ, n = e → e < 2 ^ 32 → IsLimitedPower limits a m e (pow.apply limits [a, b]) := by
  obtain ⟨s, rfl, hs⟩ := Value.exists_scalar_of_integer? ha
  obtain ⟨t, rfl, ht⟩ := Value.exists_scalar_of_integer? hb
  refine ⟨operators[2], operators[8], find?_operator hcatalog 2 (by decide),
    find?_operator hcatalog 8 (by decide), ?_, ?_⟩
  · rw [apply_two List.mem_cons_self]
    exact isLimitedProduct_mulValues hs ht
  · rintro e rfl he
    rw [apply_pow, powValues_natural hs ht]
    exact isLimitedPower_integerPower hlimit hs he

/-- Under a limit of 128 bits, `2 ^ 128` is a power still, and neither the square of `2 ^ 100` nor
its cube is computed. -/
theorem length_limit_is_tight_at_128_bits :
    let catalog := Catalog.standard.toOption.getD .empty
    let limits : Limits := ⟨.onOverflow, 128⟩
    let wide : Value := .bigInt (2 ^ 100)
    ∃ mul pow, catalog.find? "mul" = some mul ∧ catalog.find? "pow" = some pow ∧
      mul.apply limits [wide, wide] = .error (.domain "mul" .resultTooLarge) ∧
      pow.apply limits [wide, .bigInt 3] = .error (.domain "pow" .resultTooLarge) ∧
      pow.apply limits [.int 2, .int 128] = .ok (.bigInt (2 ^ 128)) := by
  intro catalog limits wide
  have hlimit : 1 ≤ limits.maxIntegerBits := by decide
  obtain ⟨mul, pow, hmul, hpow, hproduct, -⟩ := length_limit_is_tight Catalog.standard_eq limits
    hlimit (a := wide) (b := wide) rfl rfl
  obtain ⟨_, _, -, hpow', -, hcube⟩ := length_limit_is_tight Catalog.standard_eq limits
    hlimit (a := wide) (b := .bigInt 3) rfl rfl
  obtain rfl := Option.some.inj (hpow.symm.trans hpow')
  obtain ⟨_, _, -, hpow', -, hpower⟩ := length_limit_is_tight Catalog.standard_eq limits
    hlimit (a := .int 2) (b := .int 128) rfl rfl
  obtain rfl := Option.some.inj (hpow.symm.trans hpow')
  have hcube := hcube 3 rfl (by decide)
  have hpower := hpower 128 rfl (by decide)
  refine ⟨mul, pow, hmul, hpow, ?_, ?_, ?_⟩
  · by_contra hnot
    exact absurd (Nat.size_le.mp (hproduct.settled hnot).2) (by decide)
  · by_contra hnot
    exact absurd (Nat.size_le.mp (hcube.settled hnot).2) (by decide)
  · have hnot := mt hpower.refused (by decide)
    exact (hpower.settled hnot).1.promoted (by simp [Value.kind]) (by decide) rfl

/-- A power is refused only if it is too long, or if the exponent has more than 32 bits. A power to
such an exponent is too long all the same, unless the base has no more than one bit or the limit
is that high. -/
theorem refused_powers_are_long {catalog : Catalog} (hcatalog : Catalog.standard = .ok catalog)
    (limits : Limits) {a b : Value} {m : ℤ} {e : ℕ} (ha : a.integer? = some m)
    (hb : b.integer? = some (e : ℤ)) :
    ∃ pow, catalog.find? "pow" = some pow ∧
      (∀ err, pow.apply limits [a, b] = .error err → err.kind = .domain →
        limits.maxIntegerBits < (m ^ e).natAbs.size ∨
          2 ^ 32 ≤ e ∧ (|m| ≤ 1 ∨ 2 ^ 32 < limits.maxIntegerBits)) ∧
      (2 ^ 32 ≤ e → pow.apply limits [a, b] = .error (.domain "pow" .exponentTooLarge)) := by
  obtain ⟨s, rfl, hs⟩ := Value.exists_scalar_of_integer? ha
  obtain ⟨t, rfl, ht⟩ := Value.exists_scalar_of_integer? hb
  refine ⟨operators[8], find?_operator hcatalog 8 (by decide), ?_⟩
  rw [apply_pow, powValues_natural hs ht]
  refine ⟨fun err herr hkind => ?_, fun hlarge => integerPower_of_large s m hlarge⟩
  rcases Nat.lt_or_ge e (2 ^ 32) with hsmall | hlarge
  · have hlong := two_pow_le_of_refused hs hsmall herr hkind
    exact .inl (Nat.lt_of_succ_lt (Nat.lt_size.mpr hlong))
  · by_cases hshort : |m| ≤ 1 ∨ 2 ^ 32 < limits.maxIntegerBits
    · exact .inr ⟨hlarge, hshort⟩
    · obtain ⟨hm, hlimit⟩ := not_or.mp hshort
      exact .inl (lt_size_pow_of_large (not_le.mp hm) ((not_lt.mp hlimit).trans hlarge))

/-- Ten to three million is refused as too long, and minus one to `2 ^ 32` for its exponent. -/
theorem refused_powers_are_long_by_default :
    let catalog := Catalog.standard.toOption.getD .empty
    let limits : Limits := ⟨.onOverflow, 65536⟩
    ∃ pow, catalog.find? "pow" = some pow ∧
      pow.apply limits [.int 10, .int 3000000] = .error (.domain "pow" .resultTooLarge) ∧
      65536 < ((10 : ℤ) ^ 3000000).natAbs.size ∧
      pow.apply limits [.int (-1), .bigInt (2 ^ 32)] =
        .error (.domain "pow" .exponentTooLarge) := by
  intro catalog limits
  obtain ⟨pow, hpow, hlong, -⟩ := refused_powers_are_long Catalog.standard_eq limits
    (a := .int 10) (b := .int 3000000) (e := 3000000) rfl rfl
  obtain ⟨_, hpow', -, hlarge⟩ := refused_powers_are_long Catalog.standard_eq limits
    (a := .int (-1)) (b := .bigInt (2 ^ 32)) (e := 2 ^ 32) rfl rfl
  obtain rfl := Option.some.inj (hpow.symm.trans hpow')
  have hoperator : pow = operators[8] :=
    Option.some.inj (hpow.symm.trans (find?_operator Catalog.standard_eq 8 (by decide)))
  have hrefused : pow.apply limits [.int 10, .int 3000000] =
      .error (.domain "pow" .resultTooLarge) := by
    rw [hoperator]
    rfl
  refine ⟨pow, hpow, hrefused, ?_, hlarge le_rfl⟩
  exact (hlong _ hrefused rfl).resolve_right fun hexponent => absurd hexponent.1 (by decide)

/-- One to `2 ^ 32` is refused, although its powers never grow. -/
theorem power_of_one_refused :
    ¬ ∀ pow, (Catalog.standard.toOption.getD .empty).find? "pow" = some pow →
      ∀ (limits : Limits) (a b : Value) (m : ℤ) (e : ℕ), a.integer? = some m →
        b.integer? = some (e : ℤ) → ∀ err, pow.apply limits [a, b] = .error err →
          err.kind = .domain → limits.maxIntegerBits < (m ^ e).natAbs.size := by
  intro h
  have hlong := h operators[8] (find?_operator Catalog.standard_eq 8 (by decide))
    ⟨.onOverflow, 65536⟩ (.int 1) (.int (2 ^ 32)) 1 (2 ^ 32) rfl rfl
    (.domain "pow" .exponentTooLarge) rfl rfl
  rw [one_pow, Int.natAbs_one, Nat.size_one] at hlong
  exact absurd hlong (by decide)

end Arithmetic

end ReversePolish
