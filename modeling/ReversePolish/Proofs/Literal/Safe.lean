import ReversePolish.Proofs.Literal.Textual
import ReversePolish.Proofs.Operator.Safe.Basic

/-! # Reading literals causes no internal errors

A unit that reads as a literal is one of the catalog. -/

namespace ReversePolish.Literal

variable {text : List Char}

/-- Whether the value of the literal, if there is one, is known. -/
def KnownIfAny (l? : Option Literal) : Prop := ∀ l, l? = some l → l.value.Known

theorem knownIfAny_none : KnownIfAny none := nofun

theorem knownIfAny_some {l : Literal} (h : l.value.Known) : KnownIfAny (some l) := by
  rintro _ ⟨⟩
  exact h

/-! ## Numbers -/

theorem ofDigits_known (radix : Radix) (negative : Bool) (digits : List Char) :
    (ofDigits radix negative digits).value.Known := by
  simp only [ofDigits, Value.ofInt]
  split <;> exact Value.known_scalar _

theorem number_safe (text : List Char) : Safe KnownIfAny (number text) := by
  unfold number
  split
  split
  dsimp only
  split
  · exact knownIfAny_none
  split
  · split
    · rfl
    · exact knownIfAny_some (ofDigits_known _ _ _)
  split
  · exact knownIfAny_some (ofDigits_known _ _ _)
  split
  · exact knownIfAny_some (Value.known_scalar _)
  · rfl

/-! ## Vectors and matrices -/

theorem components_safe (body : List Char) : Safe (fun _ => True) (components body) :=
  (components_textual body).safe

theorem vector_safe (text : String) (body : List Char) :
    Safe (fun l => l.value.Known) (vector text body) := by
  refine (components_safe body).bind fun xs _ => ?_
  split
  · next hvalue => exact Value.known_of_ofComponents? hvalue
  · rfl

theorem matrix_safe (text : String) (body : List Char) :
    Safe (fun l => l.value.Known) (matrix text body) := by
  refine (splitRows_raises text body).safe.bind fun rows _ => ?_
  refine (Safe.mapM fun row _ => (rowComponents_raises row).safe).bind fun rows _ => ?_
  split
  · rfl
  split
  · next hvalue => exact Value.known_of_ofRows? hvalue
  · rfl

theorem bracketed_safe (text : List Char) : Safe (fun l => l.value.Known) (bracketed text) := by
  refine (inside_raises text).safe.bind fun body _ => ?_
  dsimp only
  split
  · exact matrix_safe _ _
  · exact vector_safe _ _

/-! ## Units -/

theorem unit_safe (text name : List Char) : Safe (fun l => l.value.Known) (unit text name) := by
  unfold unit
  dsimp only
  split
  · rfl
  split
  · rfl
  · next hfound =>
    rintro _ ⟨⟩
    simpa [Option.isSome_iff_ne_none] using hfound

theorem read_safe (text : String) : Safe KnownIfAny (read text) := by
  unfold read
  split
  · exact (bracketed_safe _).map fun _ h => knownIfAny_some h
  · exact (unit_safe _ _).map fun _ h => knownIfAny_some h
  · exact number_safe _

end ReversePolish.Literal
