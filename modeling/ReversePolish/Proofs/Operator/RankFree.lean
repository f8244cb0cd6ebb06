import ReversePolish.Operator.Shaped
import ReversePolish.Proofs.Outcome
import ReversePolish.Proofs.Value.Widening

/-! # Operators that do not tell the representations of integers apart

When machine integers that overflow are widened, an operator has no way to show whether its
arguments had been widened before. It is enough to widen all of them at once. -/

namespace ReversePolish

variable {α β : Type}

/-- Either both fail, with errors of one kind, or both have results, in the given relation. -/
inductive Alike (r : α → α → Prop) : Except Error α → Except Error α → Prop where
  | failed {e e' : Error} (h : e.kind = e'.kind) : Alike r (.error e) (.error e')
  | given {a b : α} (h : r a b) : Alike r (.ok a) (.ok b)

namespace Alike

theorem refl {r : α → α → Prop} (hr : ∀ a, r a a) (x : Except Error α) : Alike r x x := by
  cases x with
  | error e => exact .failed rfl
  | ok a => exact .given (hr a)

theorem symm {r : α → α → Prop} {x y : Except Error α} (h : Alike r x y)
    (hr : ∀ {a b}, r a b → r b a) : Alike r y x := by
  cases h with
  | failed h => exact .failed h.symm
  | given h => exact .given (hr h)

theorem trans {r : α → α → Prop} {x y z : Except Error α} (h : Alike r x y) (h' : Alike r y z)
    (hr : ∀ {a b c}, r a b → r b c → r a c) : Alike r x z := by
  cases h with
  | failed h =>
      cases h' with
      | failed h' => exact .failed (h.trans h')
  | given h =>
      cases h' with
      | given h' => exact .given (hr h h')

theorem bind {r : α → α → Prop} {r' : β → β → Prop} {x y : Except Error α}
    {f g : α → Except Error β} (h : Alike r x y) (hnext : ∀ a b, r a b → Alike r' (f a) (g b)) :
    Alike r' (x >>= f) (y >>= g) := by
  cases h with
  | failed h => exact .failed h
  | given h => exact hnext _ _ h

/-- After the same first part. -/
theorem bind_left {r : β → β → Prop} (x : Except Error α) {f g : α → Except Error β}
    (hnext : ∀ a, x = .ok a → Alike r (f a) (g a)) : Alike r (x >>= f) (x >>= g) := by
  cases x with
  | error e => exact .failed rfl
  | ok a => exact hnext a rfl

end Alike

/-- Whether the outcome stays the same when the machine integers among the arguments are widened. -/
def Evaluation.RankFree (f : Evaluation) : Prop :=
  ∀ bits args, Alike Value.Agrees (f ⟨.onOverflow, bits⟩ args)
    (f ⟨.onOverflow, bits⟩ (args.map Value.widened))

/-- Arguments that agree have the same outcome, as they are alike once widened. -/
theorem Evaluation.RankFree.alike {f : Evaluation} (hf : f.RankFree) (bits : ℕ)
    {args args' : List Value} (h : List.Forall₂ Value.Agrees args args') :
    Alike Value.Agrees (f ⟨.onOverflow, bits⟩ args) (f ⟨.onOverflow, bits⟩ args') := by
  have hwidened : args.map Value.widened = args'.map Value.widened := by
    induction h with
    | nil => rfl
    | cons h _ ih => rw [List.map_cons, List.map_cons, h.widened_eq, ih]
  have hback := (hf bits args').symm Value.Agrees.symm
  rw [← hwidened] at hback
  exact (hf bits args).trans hback Value.Agrees.trans

namespace Operator

/-! ## By number of arguments -/

section Arity

variable {op : String}

theorem rankFree_unary {f : Limits → Value → Except Error Value}
    (h : ∀ bits v, Alike Value.Agrees (f ⟨.onOverflow, bits⟩ v) (f ⟨.onOverflow, bits⟩ v.widened)) :
    Evaluation.RankFree fun limits => unary op (f limits) := by
  intro bits args
  match args with
  | [v] => exact h bits v
  | [] => exact .failed rfl
  | _ :: _ :: _ => exact .failed rfl

/-- All other values are widened already. -/
theorem rankFree_unary_of_int {f : Limits → Value → Except Error Value}
    (h : ∀ bits n, Alike Value.Agrees (f ⟨.onOverflow, bits⟩ (.int n))
      (f ⟨.onOverflow, bits⟩ (.bigInt n.toInt))) :
    Evaluation.RankFree fun limits => unary op (f limits) := by
  refine rankFree_unary fun bits v => ?_
  cases v with
  | scalar s =>
      cases s with
      | int n => exact h bits n
      | bigInt n => exact .refl .refl _
      | real x => exact .refl .refl _
  | vector d v => exact .refl .refl _
  | matrix d m => exact .refl .refl _
  | unit name => exact .refl .refl _

theorem rankFree_binary {f : Limits → Value → Value → Except Error Value}
    (h : ∀ bits v w, Alike Value.Agrees (f ⟨.onOverflow, bits⟩ v w)
      (f ⟨.onOverflow, bits⟩ v.widened w.widened)) :
    Evaluation.RankFree fun limits => binary op (f limits) := by
  intro bits args
  match args with
  | [v, w] => exact h bits v w
  | [] => exact .failed rfl
  | [_] => exact .failed rfl
  | _ :: _ :: _ :: _ => exact .failed rfl

@[simp]
theorem realArg_widened (v : Value) : realArg op v.widened = realArg op v := by
  cases v with
  | scalar s => exact congrArg Except.ok s.toReal_widened
  | _ => rfl

/-- What is done with two scalars of one rank only has to be alike for every such pair. -/
theorem bind_scalarPair_widened {v w : Value} {f g : Scalar.Pair → Except Error Value}
    (h : ∀ p, scalarPair op v w = .ok p → Alike Value.Agrees (f p) (g p.widened)) :
    Alike Value.Agrees (scalarPair op v w >>= f)
      (scalarPair op v.widened w.widened >>= g) := by
  cases v with
  | scalar s =>
      cases w with
      | scalar t =>
          have hpromote : scalarPair op (Value.scalar s).widened (Value.scalar t).widened =
              .ok (Scalar.promote s t).widened :=
            congrArg Except.ok (Scalar.promote_widened s t)
          rw [hpromote]
          exact h _ rfl
      | _ => exact .failed rfl
  | _ => exact .failed rfl

theorem eq_int_of_scalarPair {v w : Value} {m n : Word}
    (h : scalarPair op v w = .ok (.int m n)) : v = .int m ∧ w = .int n := by
  cases v with
  | scalar s =>
      cases w with
      | scalar t =>
          cases s <;> cases t <;> cases h
          exact ⟨rfl, rfl⟩
      | _ => cases h
  | _ => cases h

end Arity

end Operator

/-! ## Signatures -/

/-- Whether the two representations of integers are accepted alike. -/
def KindSet.RankFree (s : KindSet) : Prop := s.contains .int = s.contains .bigInt

theorem KindSet.RankFree.contains_widened {s : KindSet} (hs : s.RankFree) (v : Value) :
    s.contains v.widened.kind = s.contains v.kind := by
  cases v with
  | scalar t =>
      cases t with
      | int n => exact hs.symm
      | _ => rfl
  | _ => rfl

theorem Signature.accepts_widened {sig : Signature} (hsig : ∀ s ∈ sig, s.RankFree)
    (args : List Value) :
    sig.accepts ((args.map Value.widened).map Value.kind) = sig.accepts (args.map Value.kind) := by
  induction sig generalizing args with
  | nil =>
      cases args with
      | nil => rfl
      | cons _ _ => rfl
  | cons s sig ih =>
      cases args with
      | nil => rfl
      | cons v args =>
          obtain ⟨hs, hsig⟩ := List.forall_mem_cons.mp hsig
          simp only [List.map_cons, accepts, hs.contains_widened, ih hsig]

namespace Operator

/-- What keeps an operator from telling the representations apart. -/
structure RankFree (op : Operator) : Prop where
  signatures : ∀ sig ∈ op.signatures, ∀ s ∈ sig, s.RankFree
  evaluate : Evaluation.RankFree op.evaluate

theorem RankFree.accepts_widened {op : Operator} (hop : op.RankFree) (args : List Value) :
    op.accepts ((args.map Value.widened).map Value.kind) = op.accepts (args.map Value.kind) := by
  unfold Operator.accepts
  rw [Bool.eq_iff_iff, List.any_eq_true, List.any_eq_true]
  refine exists_congr fun sig => and_congr_right fun hsig => ?_
  rw [Signature.accepts_widened (hop.signatures sig hsig)]

theorem RankFree.apply {op : Operator} (hop : op.RankFree) : Evaluation.RankFree op.apply := by
  intro bits args
  unfold Operator.apply
  rw [hop.accepts_widened]
  split
  · exact hop.evaluate bits args
  · exact .failed rfl

end Operator

end ReversePolish
