import ReversePolish.Proofs.Session.Meaning
import ReversePolish.Proofs.Session.Submission
import ReversePolish.Proofs.Stack.Operations

/-! # Lines that fail

A line fails at a token that is none, or at the first token that its draft refuses. Whatever the
tokens before did to the draft, nothing but the error comes of the line. -/

namespace ReversePolish

open Outcome

/-- The results that an operator is applied to. -/
def Stack.operands (s : Stack) (op : Operator) : List Value :=
  (s.items.drop (s.size - op.arity)).map Item.result

/-- An operator fails for want of operands, on the operands, or for want of room for its result,
and is tried in this order. -/
theorem Stack.operate_eq_error {s : Stack} {limits : Limits} {op : Operator} {err : Error} :
    s.operate limits op = .error err ↔
      (s.size < op.arity ∧ err = .stackUnderflow op.name op.arity s.size) ∨
      (op.arity ≤ s.size ∧ op.apply limits (s.operands op) = .error err) ∨
      (op.arity ≤ s.size ∧ (op.apply limits (s.operands op)).isOk ∧
        s.checkDepth (s.size - op.arity + 1) = .error err) := by
  simp only [operate_def, operands]
  by_cases hfew : s.size < op.arity
  · rw [if_pos hfew]
    constructor
    · intro h
      exact .inl ⟨hfew, (Except.error.inj h).symm⟩
    · rintro (⟨_, rfl⟩ | ⟨harity, _⟩ | ⟨harity, _⟩)
      · rfl
      · omega
      · omega
  · have harity : op.arity ≤ s.size := Nat.le_of_not_lt hfew
    have hfits : ¬ s.size < s.size - op.arity + op.arity := by omega
    rw [if_neg hfew]
    simp only [hfew, harity, false_and, true_and, false_or]
    rw [bind_eq_error]
    refine or_congr_right ?_
    constructor
    · rintro ⟨result, hresult, h⟩
      refine ⟨by rw [hresult]; rfl, ?_⟩
      simpa [replaceRange_eq_error, hfits, harity] using h
    · rintro ⟨hok, h⟩
      cases hresult : op.apply limits ((s.items.drop (s.size - op.arity)).map Item.result) with
      | error e => rw [hresult] at hok; cases hok
      | ok result =>
          refine ⟨result, rfl, ?_⟩
          simpa [replaceRange_eq_error, hfits, harity] using h

namespace Evaluator

/-- Why a draft refuses a token, and with which error: the token has no meaning, or what it means
cannot be done. -/
inductive Refuses (e : Evaluator) (d : Draft) (token : String) : Error → Prop where
  | meaningless {err : Error} (h : e.Means token (.error err)) : Refuses e d token err
  | noRoom {l : Literal} {limit : Nat} (h : e.Means token (.ok (.literal l)))
      (hlimit : d.stack.maxDepth = some limit) (hfull : limit < d.stack.size + 1) :
      Refuses e d token (.stackOverflow limit)
  | fewOperands {op : Operator} (h : e.Means token (.ok (.operator op)))
      (hfew : d.stack.size < op.arity) :
      Refuses e d token (.stackUnderflow op.name op.arity d.stack.size)
  | undefined {op : Operator} {err : Error} (h : e.Means token (.ok (.operator op)))
      (harity : op.arity ≤ d.stack.size)
      (happly : op.apply e.limits (d.stack.operands op) = .error err) : Refuses e d token err
  | noRoomForResult {op : Operator} {limit : Nat} (h : e.Means token (.ok (.operator op)))
      (harity : op.arity ≤ d.stack.size) (hok : (op.apply e.limits (d.stack.operands op)).isOk)
      (hlimit : d.stack.maxDepth = some limit) (hfull : limit < d.stack.size - op.arity + 1) :
      Refuses e d token (.stackOverflow limit)
  | command {c : Command} {err : Error} (h : e.Means token (.ok (.command c)))
      (hstill : c.isTravel = false) (hrun : d.stack.runCommand c = .error err) :
      Refuses e d token err
  | notAlone {c : Command} (h : e.Means token (.ok (.command c))) (htravel : c.isTravel = true) :
      Refuses e d token (.parse token .notAlone)

theorem step_eq_error {e : Evaluator} {d : Draft} {token : String} {err : Error} :
    e.step d token = .error err ↔ Refuses e d token err := by
  rw [step, bind_eq_error]
  constructor
  · rintro (hmeaning | ⟨meaning, hmeaning, h⟩)
    · exact .meaningless (means_iff.mpr hmeaning)
    · have hmeans := means_iff.mpr hmeaning
      cases meaning with
      | literal l =>
          rcases bind_eq_error.mp h with hpush | ⟨_, _, h⟩
          · obtain ⟨limit, hlimit, hfull, rfl⟩ :=
              Stack.checkDepth_eq_error.mp (Stack.push_eq_error.mp hpush)
            exact .noRoom hmeans hlimit hfull
          · cases h
      | operator op =>
          rcases Stack.operate_eq_error.mp (map_eq_error.mp h) with
            ⟨hfew, rfl⟩ | ⟨harity, happly⟩ | ⟨harity, hok, hfull⟩
          · exact .fewOperands hmeans hfew
          · exact .undefined hmeans harity happly
          · obtain ⟨limit, hlimit, hroom, rfl⟩ := Stack.checkDepth_eq_error.mp hfull
            exact .noRoomForResult hmeans harity hok hlimit hroom
      | claimed => cases h
      | command c =>
          cases c with
          | edit edit => exact .command hmeans rfl (map_eq_error.mp h)
          | travel t =>
              obtain rfl := Except.error.inj h
              exact .notAlone hmeans rfl
  · intro h
    cases h with
    | meaningless h => exact .inl h.meaning_eq
    | noRoom h hlimit hfull =>
        refine .inr ⟨_, h.meaning_eq, bind_eq_error.mpr (.inl (Stack.push_eq_error.mpr ?_))⟩
        exact Stack.checkDepth_eq_error.mpr ⟨_, hlimit, hfull, rfl⟩
    | fewOperands h hfew =>
        refine .inr ⟨_, h.meaning_eq, map_eq_error.mpr ?_⟩
        exact Stack.operate_eq_error.mpr (.inl ⟨hfew, rfl⟩)
    | undefined h harity happly =>
        refine .inr ⟨_, h.meaning_eq, map_eq_error.mpr ?_⟩
        exact Stack.operate_eq_error.mpr (.inr (.inl ⟨harity, happly⟩))
    | noRoomForResult h harity hok hlimit hfull =>
        refine .inr ⟨_, h.meaning_eq, map_eq_error.mpr ?_⟩
        refine Stack.operate_eq_error.mpr (.inr (.inr ⟨harity, hok, ?_⟩))
        exact Stack.checkDepth_eq_error.mpr ⟨_, hlimit, hfull, rfl⟩
    | command h hstill hrun =>
        refine .inr ⟨_, h.meaning_eq, ?_⟩
        simpa [perform, hstill] using map_eq_error.mpr hrun
    | notAlone h htravel =>
        refine .inr ⟨_, h.meaning_eq, ?_⟩
        simp [perform, htravel]

theorem run_eq_error {e : Evaluator} {s : Stack} {tokens : List String} {err : Error} :
    e.run s tokens = .error err ↔
      ∃ before token after d, tokens = before ++ token :: after ∧ e.run s before = .ok d ∧
        Refuses e d token err := by
  simp only [← step_eq_error]
  exact foldlM_eq_error

end Evaluator

namespace Session

/-- Why a line fails, and with which error. The draft at the failing token may have changed, and
may hold tokens for the presentation. A step through the history that stands alone is not evaluated
on a draft. -/
inductive Fails (s : Session) (line : String) : Error → Prop where
  | unscannable {err : Error} (h : Token.scanLine line = .error err) : Fails s line err
  | refused {before after : List String} {token : String} {d : Draft} {err : Error}
      (hline : Token.words line = .ok (before ++ token :: after))
      (halone : s.evaluator.travel? (before ++ token :: after) = none)
      (hrun : s.evaluator.run s.stack before = .ok d)
      (h : s.evaluator.Refuses d token err) : Fails s line err

theorem evaluate_eq_error {s : Session} {line : String} {err : Error} :
    s.evaluate line = .error err ↔ s.Fails line err := by
  rw [evaluate_eq, bind_eq_error]
  constructor
  · rintro (h | ⟨tokens, hline, h⟩)
    · exact .unscannable (map_eq_error.mp h)
    · split at h
      · cases h
      · next halone =>
          obtain ⟨before, token, after, d, rfl, hrun, h⟩ :=
            Evaluator.run_eq_error.mp (map_eq_error.mp h)
          exact .refused hline halone hrun h
  · intro h
    cases h with
    | unscannable h => exact .inl (map_eq_error.mpr h)
    | refused hline halone hrun h =>
        refine .inr ⟨_, hline, ?_⟩
        simp only [halone]
        exact map_eq_error.mpr (Evaluator.run_eq_error.mpr ⟨_, _, _, _, rfl, hrun, h⟩)

theorem evaluation_fails_iff {line : String} {c : Course} {err : Error} :
    SessionM.evaluate line c = .error err c ↔ c.session.evaluate line = .error err := by
  have hattempt : (SessionM.evaluate line).attempt c = .error err ↔
      c.session.evaluate line = .error err := by
    rw [attempt_evaluate, map_eq_error]
  rw [← hattempt, Action.attempt_eq_error]
  constructor
  · intro h
    exact ⟨c, h⟩
  · rintro ⟨left, h⟩
    rwa [SessionM.atomic_evaluate line c err left h] at h

theorem submit_of_evaluate_eq_error {s : Session} {line : String} {err : Error}
    (h : s.evaluate line = .error err) : s.submit line = ⟨s, [.error err.message], .error err⟩ := by
  rw [submit_eq, h]

theorem outcome_eq_error {s : Session} {line : String} {err : Error} :
    (s.submit line).outcome = .error err ↔ s.evaluate line = .error err := by
  rw [submit_eq]
  split
  · next h => simp [h]
  · next h => simp [h]

/-- A line fails at a token that is none or at the first that is refused, whatever the tokens
before it have done. Stack, history and what readers see are then left as they were, with their
versions, and behind what it was told before the presentation is told the error and nothing else. -/
theorem failed_line_leaves_no_trace (s : Session) (line : String) (err : Error) :
    ((s.submit line).outcome = .error err ↔ s.Fails line err) ∧
      ((s.submit line).outcome = .error err ↔
        s.submit line = ⟨s, [.error err.message], .error err⟩) ∧
      ∀ told left, SessionM.submit line ⟨s, told⟩ = .error err left ↔
        s.Fails line err ∧ left = ⟨s, told ++ [.error err.message]⟩ := by
  refine ⟨outcome_eq_error.trans evaluate_eq_error, ⟨?_, fun h => by rw [h]⟩, ?_⟩
  · intro h
    exact submit_of_evaluate_eq_error (outcome_eq_error.mp h)
  · intro told left
    rw [SessionM.submit_eq_error, evaluation_fails_iff, evaluate_eq_error]

end Session

end ReversePolish
