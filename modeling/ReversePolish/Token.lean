import ReversePolish.Error
import ReversePolish.Text.Blank

/-! # Tokens of a line

Blanks separate tokens. A token that begins with a bracket goes on until its brackets balance, and
no other token holds a bracket. -/

namespace ReversePolish

/-- A token with its distance from the start of the line in bytes. -/
structure Token where
  text : String
  offset : Nat
  deriving DecidableEq, Repr

namespace Token

/-- The bytes of a text. -/
def byteCount (cs : List Char) : Nat := cs.foldr (fun c bytes => c.utf8Size + bytes) 0

def isBracket (c : Char) : Bool := c = '[' || c = ']'

/-- The characters of a token outside brackets. -/
def isBare (c : Char) : Bool := !Text.isBlank c && !isBracket c

/-- Splits after the bracket that closes `depth + 1` open ones. -/
def balanced? : Nat → List Char → Option (List Char × List Char)
  | _, [] => none
  | depth, c :: cs =>
    if c = '[' then (balanced? (depth + 1) cs).map fun (inside, rest) => (c :: inside, rest)
    else if c = ']' then
      match depth with
      | 0 => some ([c], cs)
      | depth + 1 => (balanced? depth cs).map fun (inside, rest) => (c :: inside, rest)
    else (balanced? depth cs).map fun (inside, rest) => (c :: inside, rest)

theorem balanced?_append {depth : Nat} {cs inside rest : List Char}
    (h : balanced? depth cs = some (inside, rest)) : inside ++ rest = cs := by
  fun_induction balanced? depth cs generalizing inside rest with
  | case1 => cases h
  | case2 _ _ ih | case4 _ _ _ ih | case5 _ _ _ _ _ ih =>
    simp only [Option.map_eq_some_iff, Prod.mk.injEq, Prod.exists] at h
    obtain ⟨i, r, hr, rfl, rfl⟩ := h
    simp [ih hr]
  | case3 =>
    simp only [Option.some.injEq, Prod.mk.injEq] at h
    simp [← h.1, ← h.2]

theorem balanced?_length {depth : Nat} {cs inside rest : List Char}
    (h : balanced? depth cs = some (inside, rest)) : rest.length ≤ cs.length := by
  simp [← balanced?_append h]

/-- The text up to the next blank, for a message. -/
def word (cs : List Char) : String := String.ofList (cs.takeWhile (!Text.isBlank ·))

/-- The tokens of what remains of a line, at the given offset. -/
def scan (offset : Nat) (cs : List Char) : Except Error (List Token) :=
  match cs with
  | [] => .ok []
  | c :: rest =>
    if Text.isBlank c then scan (offset + c.utf8Size) rest
    else if c = ']' then .error (.parse (word cs) .closingBracket)
    else if c = '[' then
      match h : balanced? 0 rest with
      | none => .error (.parse (String.ofList cs) .openBracket)
      | some (inside, after) =>
        let text := c :: inside
        have : after.length ≤ rest.length := balanced?_length h
        (scan (offset + byteCount text) after).map (⟨String.ofList text, offset⟩ :: ·)
    else
      let text := cs.takeWhile isBare
      let after := rest.dropWhile isBare
      have : (rest.dropWhile isBare).length ≤ rest.length := (List.dropWhile_sublist _).length_le
      if after.head?.any isBracket then .error (.parse (word cs) .bracketInWord)
      else (scan (offset + byteCount text) after).map (⟨String.ofList text, offset⟩ :: ·)
  termination_by cs.length
  decreasing_by all_goals (simp only [List.length_cons]; omega)

/-- Splits a line into its tokens. -/
def scanLine (line : String) : Except Error (List Token) := scan 0 line.toList

end Token

end ReversePolish
