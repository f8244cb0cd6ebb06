import Mathlib.Data.String.Basic
import ReversePolish.Text.Order

/-! # The order of texts by length

Texts of one length are ordered as texts. -/

namespace ReversePolish.Text

variable {a b c : String}

theorem shorterFirst_iff :
    shorterFirst a b ↔
      a.utf8ByteSize < b.utf8ByteSize ∨ a.utf8ByteSize = b.utf8ByteSize ∧ a ≤ b := by
  simp [shorterFirst]

theorem shorterFirst_total (a b : String) : shorterFirst a b || shorterFirst b a := by
  rw [Bool.or_eq_true, shorterFirst_iff, shorterFirst_iff]
  rcases lt_trichotomy a.utf8ByteSize b.utf8ByteSize with hlt | heq | hgt
  · exact .inl (.inl hlt)
  · exact (le_total a b).imp (fun h => .inr ⟨heq, h⟩) fun h => .inr ⟨heq.symm, h⟩
  · exact .inr (.inl hgt)

theorem shorterFirst_trans (hab : shorterFirst a b) (hbc : shorterFirst b c) :
    shorterFirst a c := by
  rw [shorterFirst_iff] at hab hbc ⊢
  rcases hab with hab | ⟨hab, hle⟩
  · rcases hbc with hbc | ⟨hbc, -⟩
    · exact .inl (hab.trans hbc)
    · exact .inl (hab.trans_eq hbc)
  · rcases hbc with hbc | ⟨hbc, hle'⟩
    · exact .inl (hab.trans_lt hbc)
    · exact .inr ⟨hab.trans hbc, hle.trans hle'⟩

theorem shorterFirst_antisymm (hab : shorterFirst a b) (hba : shorterFirst b a) : a = b := by
  rw [shorterFirst_iff] at hab hba
  rcases hab with hab | ⟨hab, hle⟩
  · omega
  · rcases hba with hba | ⟨-, hge⟩
    · omega
    · exact le_antisymm hle hge

/-- No two different texts are on a par. -/
theorem strict_of_shorterFirst (h : shorterFirst a b) (hne : a ≠ b) :
    a.utf8ByteSize < b.utf8ByteSize ∨ a.utf8ByteSize = b.utf8ByteSize ∧ a < b :=
  (shorterFirst_iff.mp h).imp_right fun ⟨hsize, hle⟩ => ⟨hsize, lt_of_le_of_ne hle hne⟩

/-- Whatever is sorted by its texts comes out in their order. -/
theorem pairwise_mergeSort_shorterFirst {α : Type} (text : α → String) (xs : List α) :
    (xs.mergeSort fun x y => shorterFirst (text x) (text y)).Pairwise
      fun x y => shorterFirst (text x) (text y) := by
  refine List.pairwise_mergeSort ?_ ?_ xs
  · exact fun _ _ _ hxy hyz => shorterFirst_trans hxy hyz
  · exact fun x y => shorterFirst_total (text x) (text y)

end ReversePolish.Text
