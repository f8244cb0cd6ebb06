import ReversePolish.Literal.Reading
import ReversePolish.Proofs.Persistence
import ReversePolish.Token

/-! # Reading fails because of the text

Lines that do not split into tokens, and tokens that begin like a literal and do not go on like one,
fail as texts do. No stack plays a part. -/

namespace ReversePolish

theorem Token.scan_raises (offset : Nat) (cs : List Char) :
    Raises Error.IsTextual (scan offset cs) := by
  fun_induction scan offset cs with
  | case1 => trivial
  | case2 _ _ _ _ ih => exact ih
  | case3 => rfl
  | case4 => rfl
  | case5 =>
      rename_i ih
      exact ih.map _
  | case6 =>
      rename_i hbracket
      dsimp only
      rw [if_pos hbracket]
      rfl
  | case7 =>
      rename_i hbracket _ ih
      dsimp only
      rw [if_neg hbracket]
      exact ih.map _

/-- Whether the error is about the text of a number. -/
def Error.IsNumeric : Error → Prop
  | .parse _ (.digits _) | .parse _ .malformedNumber | .parse _ .number => True
  | _ => False

theorem Error.IsNumeric.isTextual {err : Error} (h : err.IsNumeric) : err.IsTextual := by
  cases err with
  | parse => rfl
  | _ => cases h

namespace Literal

/-! ## Numbers -/

theorem number_raises (text : List Char) : Raises Error.IsNumeric (number text) := by
  unfold number
  split
  split
  dsimp only
  split
  · trivial
  split
  · exact .ite trivial trivial
  split
  · trivial
  split
  · trivial
  · trivial

/-! ## Vectors and matrices -/

theorem component_raises (part : List Char) : Raises Error.IsNumeric (component part) := by
  refine (number_raises part).bind fun l? => ?_
  split
  · trivial
  · trivial

theorem components_raises (body : List Char) : Raises Error.IsNumeric (components body) :=
  .mapM fun part _ => component_raises part

theorem components_textual (body : List Char) : Raises Error.IsTextual (components body) :=
  (components_raises body).mono fun _ => Error.IsNumeric.isTextual

theorem inside_raises (text : List Char) : Raises Error.IsTextual (inside text) := by
  unfold inside
  split
  · trivial
  · rfl

theorem rowComponents_raises (row : List Char) : Raises Error.IsTextual (rowComponents row) :=
  (inside_raises row).bind components_textual

theorem vector_raises (text : String) (body : List Char) :
    Raises Error.IsTextual (vector text body) := by
  refine (components_textual body).bind fun xs => ?_
  split
  · trivial
  · rfl

theorem splitRows_raises (text : String) (body : List Char) :
    Raises Error.IsTextual ((splitRows none body).mapError (Error.parse text)) := by
  cases splitRows none body with
  | error reason => rfl
  | ok rows => trivial

theorem matrix_raises (text : String) (body : List Char) :
    Raises Error.IsTextual (matrix text body) := by
  refine (splitRows_raises text body).bind fun rows => ?_
  refine (Raises.mapM fun row _ => rowComponents_raises row).bind fun rows => ?_
  split
  · rfl
  split
  · trivial
  · rfl

theorem bracketed_raises (text : List Char) : Raises Error.IsTextual (bracketed text) :=
  (inside_raises text).bind fun _ => .ite (matrix_raises _ _) (vector_raises _ _)

/-! ## Units -/

theorem unit_raises (text name : List Char) : Raises Error.IsTextual (unit text name) :=
  .ite rfl (.ite rfl trivial)

theorem read_raises (text : String) : Raises Error.IsTextual (read text) := by
  unfold read
  split
  · exact (bracketed_raises _).map _
  · exact (unit_raises _ _).map _
  · exact (number_raises _).mono fun _ => Error.IsNumeric.isTextual

end Literal

end ReversePolish
