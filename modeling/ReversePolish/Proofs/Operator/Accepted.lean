import Mathlib.Data.List.Forall2
import ReversePolish.Operator.Basic
import ReversePolish.Operator.Linear

/-! # Arguments that a signature accepts -/

namespace ReversePolish

/-! ## The values of a set of kinds -/

namespace KindSet

variable {v : Value}

@[simp]
theorem contains_union {s t : KindSet} {k : Kind} :
    (s ∪ t).contains k = (s.contains k || t.contains k) := rfl

theorem contains_scalar : KindSet.scalar.contains v.kind ↔ ∃ s, v = .scalar s := by
  cases v with
  | scalar s => cases s <;> simp [Value.kind, scalar, integer, int, bigInt, real, of]
  | _ => simp [Value.kind, scalar, integer, int, bigInt, real, of]

theorem contains_vector : KindSet.vector.contains v.kind ↔ ∃ d w, v = .vector d w := by
  cases v with
  | scalar s => cases s <;> simp [Value.kind, vector]
  | _ => simp [Value.kind, vector]

theorem contains_matrix : KindSet.matrix.contains v.kind ↔ ∃ d m, v = .matrix d m := by
  cases v with
  | scalar s => cases s <;> simp [Value.kind, matrix]
  | _ => simp [Value.kind, matrix]

theorem contains_unit : KindSet.unit.contains v.kind ↔ ∃ name, v = .unit name := by
  cases v with
  | scalar s => cases s <;> simp [Value.kind, unit, of]
  | _ => simp [Value.kind, unit, of]

theorem contains_of_vector {d : Dimension} :
    (KindSet.of (.vector d)).contains v.kind ↔ ∃ w, v = .vector d w := by
  cases v with
  | scalar s => cases s <;> simp [Value.kind, of]
  | vector e w =>
      by_cases h : e = d
      · subst h
        simp [Value.kind, of]
      · simp [Value.kind, of, h]
  | _ => simp [Value.kind, of]

end KindSet

/-! ## The values of a signature -/

/-- Whether each kind is among those for its place. -/
def Signature.Takes (sig : Signature) (kinds : List Kind) : Prop :=
  List.Forall₂ (fun s k => KindSet.contains s k) sig kinds

theorem Signature.accepts_iff_takes {sig : Signature} {kinds : List Kind} :
    sig.accepts kinds ↔ sig.Takes kinds := by
  induction sig generalizing kinds with
  | nil => cases kinds <;> simp [accepts, Takes]
  | cons s sig ih => cases kinds <;> simp_all [accepts, Takes]

/-- Whether each value is among the kinds for its place. -/
def Signature.Fits (sig : Signature) (args : List Value) : Prop :=
  List.Forall₂ (fun s v => s.contains (Value.kind v)) sig args

theorem Signature.accepts_iff {sig : Signature} {args : List Value} :
    sig.accepts (args.map Value.kind) ↔ sig.Fits args := by
  rw [accepts_iff_takes, Takes, List.forall₂_map_right_iff, Fits]

theorem Operator.accepts_iff {op : Operator} {args : List Value} :
    op.accepts (args.map Value.kind) ↔ ∃ sig ∈ op.signatures, sig.Fits args := by
  simp [Operator.accepts, Signature.accepts_iff]

namespace Signature.Fits

variable {s t u : KindSet} {args : List Value}

theorem unary (h : Fits [s] args) : ∃ a, args = [a] ∧ s.contains a.kind := by
  obtain ⟨a, rest, ha, hrest, rfl⟩ := List.forall₂_cons_left_iff.mp h
  obtain rfl := List.forall₂_nil_left_iff.mp hrest
  exact ⟨a, rfl, ha⟩

theorem binary (h : Fits [s, t] args) :
    ∃ a b, args = [a, b] ∧ s.contains a.kind ∧ t.contains b.kind := by
  obtain ⟨a, rest, ha, hrest, rfl⟩ := List.forall₂_cons_left_iff.mp h
  obtain ⟨b, rfl, hb⟩ := unary hrest
  exact ⟨a, b, rfl, ha, hb⟩

theorem ternary (h : Fits [s, t, u] args) :
    ∃ a b c, args = [a, b, c] ∧ s.contains a.kind ∧ t.contains b.kind ∧ u.contains c.kind := by
  obtain ⟨a, rest, ha, hrest, rfl⟩ := List.forall₂_cons_left_iff.mp h
  obtain ⟨b, c, rfl, hb, hc⟩ := binary hrest
  exact ⟨a, b, c, rfl, ha, hb, hc⟩

theorem replicate {n : ℕ} (h : Fits (List.replicate n s) args) :
    args.length = n ∧ ∀ a ∈ args, s.contains a.kind := by
  induction n generalizing args with
  | zero =>
      obtain rfl := List.forall₂_nil_left_iff.mp h
      exact ⟨rfl, by simp⟩
  | succ n ih =>
      obtain ⟨a, rest, ha, hrest, rfl⟩ := List.forall₂_cons_left_iff.mp h
      obtain ⟨hlength, hrest⟩ := ih hrest
      exact ⟨by simp [hlength], List.forall_mem_cons.mpr ⟨ha, hrest⟩⟩

end Signature.Fits

end ReversePolish
