import ReversePolish.Proofs.Literal.Integer

/-! # Spellings of integers

An integer may be written in several radices, with zeros in front and with digits in either case.
Lines that differ in nothing else split alike. -/

namespace ReversePolish

open Outcome

namespace Literal

/-- The token is an integer literal of that value: the digits of a radix behind its mark, and
perhaps a minus sign in front. -/
def Spells (token : String) (n : ℤ) : Prop :=
  ∃ (negative : Bool) (body : List Char) (r : Radix) (m : ℕ),
    token.toList = (if negative then ['-'] else []) ++ body ∧ IsInteger r m body ∧
      n = if negative then -(m : ℤ) else m

theorem spells_digits (negative : Bool) (r : Radix) (digits : List Char) (hne : digits ≠ [])
    (hdigits : digits.all (Numeral.isDigitOf r.base)) :
    Spells (String.ofList ((if negative then ['-'] else []) ++ (r.mark ++ digits)))
      (if negative then -(Numeral.value r.base digits : ℤ) else Numeral.value r.base digits) :=
  ⟨negative, _, r, _, String.toList_ofList,
    ⟨digits, rfl, (Numeral.denotes_iff (radix_base r).2).mpr
      ⟨hne, List.all_eq_true.mp hdigits, rfl⟩⟩, rfl⟩

/-- Spellings of one value are read as that value, each with its radix. -/
theorem Spells.read_eq {token : String} {n : ℤ} (h : Spells token n) :
    ∃ r, read token = .ok (some { value := .ofInt n, style := { radix := r } }) := by
  obtain ⟨negative, body, r, m, htext, hbody, rfl⟩ := h
  refine ⟨r, read_of_number ?_⟩
  rw [htext]
  exact number_of_integer (splitSign_sign_append negative hbody.begins) hbody

end Literal

namespace Token

/-- The same token, or another spelling of the same integer. -/
inductive Respelled : String → String → Prop where
  | same (token : String) : Respelled token token
  | integer {a b : String} {n : ℤ} (ha : Literal.Spells a n) (hb : Literal.Spells b n) :
      Respelled a b

/-- Whether the first text is empty or ends in a blank, or the second is empty or begins with
one. -/
def MeetAtBlank (front rest : String) : Prop :=
  (∀ c ∈ front.toList.getLast?, Text.isBlank c) ∨ ∀ c ∈ rest.toList.head?, Text.isBlank c

/-- Two lines with the same tokens but for the spelling of integers. What does not split is the
same in both lines, and so may be whatever follows the last integer. -/
def RespelledLine (line line' : String) : Prop :=
  ∃ front front' rest ws vs, line = front ++ rest ∧ line' = front' ++ rest ∧
    words front = .ok ws ∧ words front' = .ok vs ∧ List.Forall₂ Respelled ws vs ∧
    MeetAtBlank front rest ∧ MeetAtBlank front' rest

theorem RespelledLine.of_words {line line' : String} {ws vs : List String}
    (hline : words line = .ok ws) (hline' : words line' = .ok vs)
    (h : List.Forall₂ Respelled ws vs) : RespelledLine line line' :=
  ⟨line, line', "", ws, vs, String.append_empty.symm, String.append_empty.symm, hline, hline', h,
    .inr nofun, .inr nofun⟩

theorem words_front {front rest : String} {ws : List String} (h : words front = .ok ws)
    (hmeet : MeetAtBlank front rest) : words (front ++ rest) = (words rest).map (ws ++ ·) := by
  have hscan := (words_eq_ok.mp h).scan_append hmeet 0
  rwa [← String.toList_append] at hscan

/-- Both split, token by token, or both fail alike. -/
theorem RespelledLine.words_lockstep {line line' : String} (h : RespelledLine line line') :
    Lockstep (List.Forall₂ Respelled) (words line) (words line') := by
  obtain ⟨front, front', rest, ws, vs, rfl, rfl, hfront, hfront', hwords, hmeet, hmeet'⟩ := h
  rw [words_front hfront hmeet, words_front hfront' hmeet']
  refine (Lockstep.refl (r := Eq) (fun _ => rfl) (words rest)).map ?_
  rintro more _ rfl
  exact List.rel_append hwords (List.forall₂_same.mpr fun token _ => .same token)

end Token

end ReversePolish
