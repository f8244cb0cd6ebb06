import ReversePolish.Proofs.Operator.RankFree
import ReversePolish.Proofs.Operator.Root

/-! # Arithmetic on machine integers and on integers of any size

Machine integers have operations of their own, with a fallback on overflow. They come out as the
operations on integers of any size do. -/

namespace ReversePolish

open Operator

/-! ## Shaped operands -/

namespace Operator

variable {op : String}

theorem addShaped_widened {a : Value} (ha : a.isScalar = false) (b : Value) :
    Alike Value.Agrees (addShaped op a b) (addShaped op a b.widened) := by
  cases b with
  | scalar t =>
      cases a with
      | scalar s => cases ha
      | _ => exact .failed rfl
  | _ => exact .refl .refl _

theorem subShaped_widened (a b : Value) :
    Alike Value.Agrees (subShaped op a b) (subShaped op a b.widened) := by
  cases b with
  | scalar t => cases t <;> exact .failed rfl
  | _ => exact .refl .refl _

theorem mulShaped_widened (a b : Value) :
    Alike Value.Agrees (mulShaped op a b) (mulShaped op a.widened b.widened) := by
  cases a with
  | scalar s =>
      cases b with
      | scalar t => exact .failed rfl
      | _ =>
          simp only [mulShaped, Value.widened, Scalar.toReal_widened]
          exact .refl .refl _
  | _ =>
      cases b with
      | scalar t =>
          simp only [mulShaped, Value.widened, Scalar.toReal_widened]
          exact .refl .refl _
      | _ => exact .refl .refl _

end Operator

namespace Arithmetic

variable {op : String} {bits : ℕ}

/-! ## Operations of one rank -/

theorem settle_alike (n : ℤ) :
    Alike Value.Agrees (settle op ⟨.onOverflow, bits⟩ n) (.ok (.bigInt n)) := by
  simp only [settle]
  cases h : Word.ofInt? n with
  | some w => exact .given (.inr ⟨n, congrArg some (Word.ofInt?_eq_some.mp h), rfl⟩)
  | none => exact .given (.refl _)

/-- It is enough that the operation on machine integers is exact where it has a result. -/
theorem ranked_widened {checked : Word → Word → Option Word} {exact : ℤ → ℤ → ℤ}
    {approximate : Float → Float → Float} {p : Scalar.Pair}
    (hsound : ∀ a b w, p = .int a b → checked a b = some w → w.toInt = exact a.toInt b.toInt) :
    Alike Value.Agrees (ranked op ⟨.onOverflow, bits⟩ checked exact approximate p)
      (ranked op ⟨.onOverflow, bits⟩ checked exact approximate p.widened) := by
  cases p with
  | int a b =>
      simp only [ranked, Scalar.Pair.widened]
      cases h : checked a b with
      | some w => exact .given (.inr ⟨_, congrArg some (hsound a b w rfl h), rfl⟩)
      | none => exact .given (.refl _)
  | bigInt a b => exact .refl .refl _
  | real x y => exact .refl .refl _

theorem ranked_checked_widened (exact : ℤ → ℤ → ℤ) {approximate : Float → Float → Float}
    (p : Scalar.Pair) :
    Alike Value.Agrees (ranked op ⟨.onOverflow, bits⟩ (Word.checked exact) exact approximate p)
      (ranked op ⟨.onOverflow, bits⟩ (Word.checked exact) exact approximate p.widened) :=
  ranked_widened fun _ _ _ _ h => Word.toInt_of_checked h

/-! ## Sums and products -/

/-- Scalars are computed by rank, and other values as what they are. -/
theorem rankedOrShaped_widened {exact : ℤ → ℤ → ℤ} {approximate : Float → Float → Float}
    {shaped shaped' : Value → Except Error Value} {a b : Value}
    (h : a.isScalar = false → Alike Value.Agrees (shaped b) (shaped' b.widened)) :
    Alike Value.Agrees
      (if a.isScalar then do
        ranked op ⟨.onOverflow, bits⟩ (Word.checked exact) exact approximate (← scalarPair op a b)
      else shaped b)
      (if a.widened.isScalar then do
        ranked op ⟨.onOverflow, bits⟩ (Word.checked exact) exact approximate
          (← scalarPair op a.widened b.widened)
      else shaped' b.widened) := by
  rw [Value.isScalar_widened]
  cases ha : a.isScalar with
  | true => exact bind_scalarPair_widened fun p _ => ranked_checked_widened _ p
  | false => exact h ha

theorem addValues_widened (a b : Value) :
    Alike Value.Agrees (addValues ⟨.onOverflow, bits⟩ a b)
      (addValues ⟨.onOverflow, bits⟩ a.widened b.widened) := by
  refine rankedOrShaped_widened fun ha => ?_
  rw [Value.widened_of_not_scalar ha]
  exact addShaped_widened ha b

theorem subValues_widened (a b : Value) :
    Alike Value.Agrees (subValues ⟨.onOverflow, bits⟩ a b)
      (subValues ⟨.onOverflow, bits⟩ a.widened b.widened) := by
  refine rankedOrShaped_widened fun ha => ?_
  rw [Value.widened_of_not_scalar ha]
  exact subShaped_widened a b

theorem mulValues_widened (a b : Value) :
    Alike Value.Agrees (mulValues ⟨.onOverflow, bits⟩ a b)
      (mulValues ⟨.onOverflow, bits⟩ a.widened b.widened) := by
  simp only [mulValues, checkProduct, Value.isScalar_widened, Value.integer?_widened]
  split
  · refine .bind_left _ fun _ _ => bind_scalarPair_widened fun p _ => ?_
    exact ranked_checked_widened _ p
  · exact mulShaped_widened a b

theorem add_rankFree : add.RankFree := rankFree_binary fun _ => addValues_widened

theorem sub_rankFree : sub.RankFree := rankFree_binary fun _ => subValues_widened

theorem mul_rankFree : mul.RankFree := rankFree_binary fun _ => mulValues_widened

theorem square_rankFree : square.RankFree := rankFree_unary fun _ v => mulValues_widened v v

/-! ## Division -/

theorem quotient_widened (p : Scalar.Pair) :
    Alike Value.Agrees (quotient ⟨.onOverflow, bits⟩ p)
      (quotient ⟨.onOverflow, bits⟩ p.widened) := by
  cases p with
  | int a b =>
      have hexact : a % b = 0 ↔ a.toInt.tmod b.toInt = 0 := by
        rw [← Int64.toInt_mod, ← Int64.toInt_zero, Int64.toInt_inj]
      simp only [quotient, Scalar.Pair.widened]
      by_cases hdvd : a % b = 0
      · rw [if_pos hdvd, if_pos (hexact.mp hdvd)]
        cases h : Word.quotient? a b with
        | some q => exact .given (.inr ⟨_, congrArg some (Word.toInt_quotient h), rfl⟩)
        | none => exact .given (.refl _)
      · rw [if_neg hdvd, if_neg (hexact.not.mp hdvd)]
        exact .given (.refl _)
  | bigInt a b => exact .refl .refl _
  | real x y => exact .refl .refl _

theorem checkDivisor_widened (b : Value) : checkDivisor b.widened = checkDivisor b := by
  simp only [checkDivisor, Value.isZeroScalar_widened]

theorem divValues_widened (a b : Value) :
    Alike Value.Agrees (divValues ⟨.onOverflow, bits⟩ a b)
      (divValues ⟨.onOverflow, bits⟩ a.widened b.widened) := by
  simp only [divValues, checkDivisor_widened, Value.isScalar_widened, realArg_widened]
  refine .bind_left _ fun _ _ => ?_
  cases ha : a.isScalar with
  | true => exact bind_scalarPair_widened fun p _ => quotient_widened p
  | false =>
      rw [Value.widened_of_not_scalar ha]
      exact .refl .refl _

theorem div_rankFree : div.RankFree := rankFree_binary fun _ => divValues_widened

/-- The dividend is a machine integer whatever the divisor is. -/
theorem inv_rankFree : inv.RankFree := by
  refine rankFree_unary_of_int fun bits n => ?_
  exact (divValues_widened (.int 1) (.int n)).trans
    ((divValues_widened (.int 1) (.bigInt n.toInt)).symm Value.Agrees.symm) Value.Agrees.trans

theorem ne_zero_of_checkDivisor {n : Word} {u : Unit} (h : checkDivisor (.int n) = .ok u) :
    n ≠ 0 := by
  rintro rfl
  cases h

theorem floorDiv_rankFree : floorDiv.RankFree := by
  refine rankFree_binary fun bits a b => ?_
  rw [checkDivisor_widened]
  refine .bind_left _ fun _ _ => bind_scalarPair_widened fun p _ => ?_
  refine ranked_widened fun m n w _ h => ?_
  obtain ⟨⟨q, r⟩, hfloored, rfl⟩ := Option.map_eq_some_iff.mp h
  exact congrArg Prod.fst (Word.toInt_flooredDivision hfloored)

/-- Where the quotient of machine integers is none, the divisor is `-1` and leaves nothing. -/
theorem floorMod_rankFree : floorMod.RankFree := by
  refine rankFree_binary fun bits a b => ?_
  rw [checkDivisor_widened]
  refine .bind_left _ fun _ hdivisor => bind_scalarPair_widened fun p hpair => ?_
  refine ranked_widened fun m n w hp h => ?_
  subst hp
  obtain ⟨rfl, rfl⟩ := eq_int_of_scalarPair hpair
  obtain rfl := Option.some.inj h
  cases hfloored : Word.flooredDivision? m n with
  | some qr => exact congrArg Prod.snd (Word.toInt_flooredDivision hfloored)
  | none =>
      obtain ⟨rfl, rfl⟩ := Word.overflow_of_flooredDivision_eq_none
        (ne_zero_of_checkDivisor hdivisor) hfloored
      decide

/-! ## Sign -/

theorem neg_rankFree : neg.RankFree := rankFree_unary_of_int fun _ n => settle_alike (-n.toInt)

theorem abs_rankFree : abs.RankFree := rankFree_unary_of_int fun _ n => settle_alike n.toInt.natAbs

theorem sign_rankFree : sign.RankFree := rankFree_unary_of_int fun _ _ => .given (.refl _)

/-! ## Powers and roots -/

theorem realPower_widened (base exponent : Value) :
    realPower base.widened exponent.widened = realPower base exponent := by
  simp only [realPower, realArg_widened]

theorem integerPower_widened {base : Scalar} {b : ℤ} (hb : base.integer? = some b) (e : ℕ) :
    Alike Value.Agrees (integerPower ⟨.onOverflow, bits⟩ base b e)
      (integerPower ⟨.onOverflow, bits⟩ base.widened b e) := by
  simp only [integerPower]
  split
  · exact .failed rfl
  · refine .bind_left _ fun _ _ => ?_
    cases base with
    | int n =>
        obtain rfl := Option.some.inj hb
        exact settle_alike (n.toInt ^ e)
    | bigInt n => exact .given (.refl _)
    | real x => cases hb

theorem powValues_widened (base exponent : Value) :
    Alike Value.Agrees (powValues ⟨.onOverflow, bits⟩ base exponent)
      (powValues ⟨.onOverflow, bits⟩ base.widened exponent.widened) := by
  have hreal : Alike Value.Agrees (realPower base exponent)
      (realPower base.widened exponent.widened) := by
    rw [realPower_widened]
    exact .refl .refl _
  simp only [powValues, Value.integer?_widened]
  cases base with
  | scalar s =>
      cases hb : (Value.scalar s).integer? with
      | none => exact hreal
      | some b =>
          cases exponent.integer? with
          | none => exact hreal
          | some e =>
              simp only [Value.widened]
              split
              · exact .failed rfl
              · split
                · exact integerPower_widened hb e.toNat
                · exact hreal
  | _ => exact hreal

theorem pow_rankFree : pow.RankFree := rankFree_binary fun _ => powValues_widened

theorem sqrt_rankFree : sqrt.RankFree := by
  refine rankFree_unary_of_int fun _ n => ?_
  simp only [integerRoot, wordRoot?_eq]
  split
  · exact .failed rfl
  · cases h : exactRoot? n.toInt with
    | some root => exact .given (.inr ⟨root, congrArg some (toInt_ofInt_root h), rfl⟩)
    | none => exact .given (.refl _)

/-! ## Extremes -/

/-- Either argument is a result, so that each has to agree with itself. -/
theorem extreme_widened (o : Ordering) (a b : Value) :
    Alike Value.Agrees
      (do .ok (if (← scalarPair op a b).compare = o then b else a))
      (do .ok (if (← scalarPair op a.widened b.widened).compare = o then b.widened
        else a.widened)) := by
  refine bind_scalarPair_widened fun p _ => ?_
  rw [Scalar.Pair.compare_widened]
  split
  · exact .given b.agrees_widened
  · exact .given a.agrees_widened

theorem min_rankFree : min.RankFree := rankFree_binary fun _ => extreme_widened .gt

theorem max_rankFree : max.RankFree := rankFree_binary fun _ => extreme_widened .lt

end Arithmetic

end ReversePolish
