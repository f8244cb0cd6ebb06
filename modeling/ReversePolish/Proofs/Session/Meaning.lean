import ReversePolish.Session.Evaluator

/-! # The order in which a token is read

A token that reads as a literal is one, or is an error where its literal is malformed. Behind
literals come operators, behind them the commands that the presentation takes over, and at last
the commands of the calculator. -/

namespace ReversePolish.Evaluator

/-- What a token is, with the reason why it is nothing that comes first. -/
inductive Means (e : Evaluator) (token : String) : Except Error Meaning → Prop where
  | malformed {err : Error} (hread : Literal.read token = .error err) : Means e token (.error err)
  | literal {l : Literal} (hread : Literal.read token = .ok (some l)) :
      Means e token (.ok (.literal l))
  | operator {op : Operator} (hread : Literal.read token = .ok none)
      (hop : e.catalog.find? token = some op) : Means e token (.ok (.operator op))
  | unknownToken (hread : Literal.read token = .ok none) (hop : e.catalog.find? token = none)
      (hform : Command.isToken token = false) : Means e token (.error (.parse token .unknownToken))
  | claimed (hread : Literal.read token = .ok none) (hop : e.catalog.find? token = none)
      (hform : Command.isToken token = true) (hclaim : e.claims token = true) :
      Means e token (.ok .claimed)
  | command {c : Command} (hread : Literal.read token = .ok none)
      (hop : e.catalog.find? token = none) (hform : Command.isToken token = true)
      (hclaim : e.claims token = false) (hfind : Command.find? token = some c) :
      Means e token (.ok (.command c))
  | unknownCommand (hread : Literal.read token = .ok none) (hop : e.catalog.find? token = none)
      (hform : Command.isToken token = true) (hclaim : e.claims token = false)
      (hfind : Command.find? token = none) : Means e token (.error (.unknownCommand token))

theorem Means.meaning_eq {e : Evaluator} {token : String} {r : Except Error Meaning}
    (h : e.Means token r) : e.meaning token = r := by
  simp only [meaning]
  cases h with
  | malformed hread => rw [hread]; rfl
  | literal hread => rw [hread]; rfl
  | operator hread hop => rw [hread]; simp [bind, Except.bind, hop]
  | unknownToken hread hop hform => rw [hread]; simp [bind, Except.bind, hop, hform]
  | claimed hread hop hform hclaim => rw [hread]; simp [bind, Except.bind, hop, hform, hclaim]
  | command hread hop hform hclaim hfind =>
      rw [hread]
      simp [bind, Except.bind, hop, hform, hclaim, hfind]
  | unknownCommand hread hop hform hclaim hfind =>
      rw [hread]
      simp [bind, Except.bind, hop, hform, hclaim, hfind]

theorem exists_means (e : Evaluator) (token : String) : ∃ r, e.Means token r := by
  cases hread : Literal.read token with
  | error err => exact ⟨_, .malformed hread⟩
  | ok read =>
      cases read with
      | some l => exact ⟨_, .literal hread⟩
      | none =>
          cases hop : e.catalog.find? token with
          | some op => exact ⟨_, .operator hread hop⟩
          | none =>
              cases hform : Command.isToken token with
              | false => exact ⟨_, .unknownToken hread hop hform⟩
              | true =>
                  cases hclaim : e.claims token with
                  | true => exact ⟨_, .claimed hread hop hform hclaim⟩
                  | false =>
                      cases hfind : Command.find? token with
                      | none => exact ⟨_, .unknownCommand hread hop hform hclaim hfind⟩
                      | some c => exact ⟨_, .command hread hop hform hclaim hfind⟩

/-- Every token has a meaning or a reason to have none, and there is no choice. -/
theorem means_iff {e : Evaluator} {token : String} {r : Except Error Meaning} :
    e.Means token r ↔ e.meaning token = r := by
  refine ⟨Means.meaning_eq, ?_⟩
  rintro rfl
  obtain ⟨r, h⟩ := exists_means e token
  rwa [h.meaning_eq]

end ReversePolish.Evaluator
