import Mathlib.Data.List.Induction
import Mathlib.Data.List.Forall2
import Mathlib.Data.Nat.Digits.Defs
import ReversePolish.Numeral

/-! # What digits denote

A text of digits denotes a number by the places of its digits. What is written for a number denotes
it. -/

namespace ReversePolish.Numeral

/-- The character is the digit `d` of the base, in lower or upper case. -/
def IsDigit (base : ℕ) (c : Char) (d : ℕ) : Prop :=
  d < base ∧ (c = d.digitChar ∨ c = d.digitChar.toUpper)

/-- One or more digits, the lowest place last. -/
def Denotes (base : ℕ) (text : List Char) (n : ℕ) : Prop :=
  text ≠ [] ∧ ∃ ds, List.Forall₂ (IsDigit base) text ds ∧ n = Nat.ofDigits base ds.reverse

variable {base : ℕ} {c : Char}

/-! ## Single digits -/

theorem toNat_of_isAlphanum (h : c.isAlphanum) :
    (65 ≤ c.toNat ∧ c.toNat ≤ 90) ∨ (97 ≤ c.toNat ∧ c.toNat ≤ 122) ∨
      (48 ≤ c.toNat ∧ c.toNat ≤ 57) := by
  rcases Bool.or_eq_true_iff.mp h with halpha | hdigit
  · rcases Bool.or_eq_true_iff.mp halpha with hupper | hlower
    · obtain ⟨hmin, hmax⟩ := of_decide_eq_true hupper
      exact .inl ⟨UInt32.le_iff_toNat_le.mp hmin, UInt32.le_iff_toNat_le.mp hmax⟩
    · obtain ⟨hmin, hmax⟩ := Bool.and_eq_true_iff.mp hlower
      exact .inr (.inl ⟨UInt32.le_iff_toNat_le.mp (of_decide_eq_true hmin),
        UInt32.le_iff_toNat_le.mp (of_decide_eq_true hmax)⟩)
  · exact .inr (.inr (Char.isDigit_iff_toNat.mp hdigit))

theorem isDigitOf_iff : isDigitOf base c ↔ c.isAlphanum ∧ digitValue c < base := by
  simp [isDigitOf]

theorem digitValue_digitChar {d : ℕ} (hd : d < 16) :
    ∀ c ∈ [d.digitChar, d.digitChar.toUpper], c.isAlphanum ∧ digitValue c = d := by
  rw [List.forall_mem_cons, List.forall_mem_singleton]
  revert d
  decide

theorem eq_digitChar_of_isDigitOf (h : isDigitOf 16 c) :
    c = (digitValue c).digitChar ∨ c = (digitValue c).digitChar.toUpper := by
  have hascii : ∀ n < 123, isDigitOf 16 (Char.ofNat n) →
      Char.ofNat n = (digitValue (Char.ofNat n)).digitChar ∨
        Char.ofNat n = (digitValue (Char.ofNat n)).digitChar.toUpper := by
    decide +kernel
  have hlt : c.toNat < 123 := by
    have hrange := toNat_of_isAlphanum (isDigitOf_iff.mp h).1
    omega
  have hc := hascii c.toNat hlt
  rw [Char.ofNat_toNat] at hc
  exact hc h

theorem isDigit_iff (hbase : base ≤ 16) {d : ℕ} :
    IsDigit base c d ↔ isDigitOf base c ∧ digitValue c = d := by
  rw [isDigitOf_iff]
  constructor
  · rintro ⟨hd, hc⟩
    obtain ⟨halpha, rfl⟩ := digitValue_digitChar (hd.trans_le hbase) c (by simpa using hc)
    exact ⟨⟨halpha, hd⟩, rfl⟩
  · rintro ⟨⟨halpha, hd⟩, rfl⟩
    exact ⟨hd, eq_digitChar_of_isDigitOf (isDigitOf_iff.mpr ⟨halpha, hd.trans_le hbase⟩)⟩

theorem isDigitOf_ten : isDigitOf 10 c ↔ c.isDigit := by
  constructor
  · intro h
    obtain ⟨hd, hc⟩ := (isDigit_iff (by decide)).mpr ⟨h, rfl⟩
    have hdecimal : ∀ d < 10, d.digitChar.isDigit ∧ d.digitChar.toUpper.isDigit := by decide
    rcases hc with hc | hc
    · exact hc ▸ (hdecimal _ hd).1
    · exact hc ▸ (hdecimal _ hd).2
  · intro h
    have hrange : 48 ≤ c.toNat ∧ c.toNat ≤ 57 := Char.isDigit_iff_toNat.mp h
    refine isDigitOf_iff.mpr ⟨Bool.or_eq_true_iff.mpr (.inr h), ?_⟩
    rw [digitValue, if_pos h]
    change c.toNat - 48 < 10
    omega

/-! ## Texts of digits -/

theorem forall₂_isDigit_iff (hbase : base ≤ 16) {text : List Char} {ds : List ℕ} :
    List.Forall₂ (IsDigit base) text ds ↔
      (∀ c ∈ text, isDigitOf base c) ∧ text.map digitValue = ds := by
  induction text generalizing ds with
  | nil => simp
  | cons c text ih =>
      cases ds with
      | nil => simp
      | cons d ds =>
          rw [List.forall₂_cons, isDigit_iff hbase, ih, List.forall_mem_cons, List.map_cons,
            List.cons.injEq]
          tauto

theorem value_append_singleton (text : List Char) (c : Char) :
    value base (text ++ [c]) = base * value base text + digitValue c := by
  simp [value]

theorem value_append (base : ℕ) (text more : List Char) :
    value base (text ++ more) = value base text * base ^ more.length + value base more := by
  induction more using List.reverseRecOn with
  | nil => simp [value]
  | append_singleton more c ih =>
      rw [← List.append_assoc, value_append_singleton, ih, value_append_singleton,
        List.length_append, List.length_singleton, pow_succ]
      ring

theorem value_zeros (base k : ℕ) : value base (List.replicate k '0') = 0 := by
  induction k with
  | zero => rfl
  | succ k ih =>
      rw [List.replicate_succ', value_append_singleton, ih]
      rfl

theorem value_eq_ofDigits (base : ℕ) (text : List Char) :
    value base text = Nat.ofDigits base (text.map digitValue).reverse := by
  induction text using List.reverseRecOn with
  | nil => rfl
  | append_singleton text c ih =>
      rw [value_append_singleton, ih, List.map_append, List.map_singleton, List.reverse_append,
        List.reverse_singleton, List.singleton_append, Nat.ofDigits_cons, Nat.add_comm]

theorem denotes_iff (hbase : base ≤ 16) {text : List Char} {n : ℕ} :
    Denotes base text n ↔
      text ≠ [] ∧ (∀ c ∈ text, isDigitOf base c) ∧ value base text = n := by
  simp only [Denotes, forall₂_isDigit_iff hbase, and_assoc]
  refine and_congr_right fun _ => ?_
  constructor
  · rintro ⟨_, hdigits, rfl, rfl⟩
    exact ⟨hdigits, value_eq_ofDigits base text⟩
  · rintro ⟨hdigits, rfl⟩
    exact ⟨_, hdigits, rfl, value_eq_ofDigits base text⟩

/-! ## What is written for a number -/

theorem digits_ne_nil (base n : ℕ) : digits base n ≠ [] := by
  simp [digits, Nat.toDigits_ne_nil]

theorem digits_of_lt {n : ℕ} (h : n < base) : digits base n = [n.digitChar.toUpper] := by
  simp [digits, Nat.toDigits_of_lt_base h]

theorem digits_of_le {n : ℕ} (hbase : 1 < base) (h : base ≤ n) :
    digits base n = digits base (n / base) ++ [(n % base).digitChar.toUpper] := by
  simp [digits, Nat.toDigits_of_base_le hbase h]

theorem denotes_digits (hone : 1 < base) (hbase : base ≤ 16) (n : ℕ) :
    Denotes base (digits base n) n := by
  rw [denotes_iff hbase]
  refine ⟨digits_ne_nil base n, ?_⟩
  have hlast {d : ℕ} (hd : d < base) :
      isDigitOf base d.digitChar.toUpper ∧ digitValue d.digitChar.toUpper = d :=
    (isDigit_iff hbase).mp ⟨hd, .inr rfl⟩
  induction n using Nat.strong_induction_on with
  | _ n ih =>
      rcases Nat.lt_or_ge n base with hn | hn
      · obtain ⟨hdigit, hvalue⟩ := hlast hn
        rw [digits_of_lt hn]
        refine ⟨List.forall_mem_singleton.mpr hdigit, ?_⟩
        simp [value, hvalue]
      · obtain ⟨hdigit, hvalue⟩ := hlast (Nat.mod_lt n (Nat.zero_lt_of_lt hone))
        obtain ⟨hdigits, hhigher⟩ :=
          ih (n / base) (Nat.div_lt_self (Nat.zero_lt_of_lt (hone.trans_le hn)) hone)
        rw [digits_of_le hone hn]
        refine ⟨List.forall_mem_append.mpr ⟨hdigits, List.forall_mem_singleton.mpr hdigit⟩, ?_⟩
        rw [value_append_singleton, hhigher, hvalue, Nat.div_add_mod]

/-- Decimal digits have no case. -/
theorem digits_ten (n : ℕ) : digits 10 n = Nat.toDigits 10 n := by
  have hupper : ∀ c ∈ Nat.toDigits 10 n, c.toUpper = c := by
    intro c hc
    have hdigit : 48 ≤ c.toNat ∧ c.toNat ≤ 57 := Char.isDigit_iff_toNat.mp
      (Nat.isDigit_of_mem_toDigits (by decide) (by decide) hc)
    have hcase : ¬ ('a'.val ≤ c.val ∧ c.val ≤ 'z'.val) := by
      rintro ⟨hlow, -⟩
      have hlow : 97 ≤ c.toNat := UInt32.le_iff_toNat_le.mp hlow
      omega
    exact dif_neg hcase
  rw [digits, List.map_congr_left hupper, List.map_id']

theorem value_toDigits (n : ℕ) : value 10 (Nat.toDigits 10 n) = n := by
  rw [← digits_ten]
  exact ((denotes_iff (by decide)).mp (denotes_digits (by decide) (by decide) n)).2.2

end ReversePolish.Numeral
