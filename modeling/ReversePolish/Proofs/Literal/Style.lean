import ReversePolish.Proofs.Literal.Bracket
import ReversePolish.Proofs.Literal.Integer

/-! # The style that a literal asks for

It is the radix of an integer, which stands in the text, so that an integer that is written and read
again keeps its radix. -/

namespace ReversePolish

/-- A decimal radix has nothing to fill in. -/
theorem Style.orElse_of_decimal {fallback : Style} (h : fallback.radix = .decimal) (s : Style) :
    s.orElse fallback = { radix := s.radix, precision := s.precision.or fallback.precision } := by
  by_cases hs : s.radix = .decimal
  · simp [orElse, hs, h]
  · simp [orElse, hs]

namespace Literal

/-- The radix in which a text is written: that of an integer, and ten for every other text. -/
inductive WrittenIn (text : String) : Radix → Prop where
  | integer {r : Radix} {n : ℕ} (h : IsInteger r n (splitSign text.toList).2) : WrittenIn text r
  | other (h : ¬ ∃ r n, IsInteger r n (splitSign text.toList).2) : WrittenIn text .decimal

/-- A literal asks for the radix in which it is written, and for no precision. -/
theorem writtenIn_of_read {text : String} {l : Literal} (h : read text = .ok (some l)) :
    ∃ r, WrittenIn text r ∧ l.style = { radix := r } := by
  by_cases hinteger : ∃ r n, IsInteger r n (splitSign text.toList).2
  · obtain ⟨r, n, hn⟩ := hinteger
    cases h.symm.trans (read_of_number (number_of_integer rfl hn))
    exact ⟨r, .integer hn, rfl⟩
  · refine ⟨.decimal, .other hinteger, ?_⟩
    rcases read_cases h with ⟨v, -, rfl⟩ | ⟨name, -, rfl⟩ | hnumber
    · rfl
    · rfl
    · cases hnumber with
      | integer hn => exact absurd ⟨_, _, hn⟩ hinteger
      | real => rfl

/-- Only integers ask for another radix than the decimal one, and no literal for a precision. -/
theorem style_of_read {text : String} {l : Literal} (h : read text = .ok (some l)) :
    ∃ r, l.style = { radix := r } ∧ (l.value.integer? = none → r = .decimal) := by
  obtain ⟨r, hradix, hstyle⟩ := writtenIn_of_read h
  refine ⟨r, hstyle, fun hvalue => ?_⟩
  cases hradix with
  | integer hn =>
      cases h.symm.trans (read_of_number (number_of_integer rfl hn))
      simp [Value.integer?_ofInt] at hvalue
  | other => rfl

/-- A value that is written in the style of a literal and read again has that style again. -/
theorem style_of_read_format {text : String} {l again : Literal} {defaults : Style}
    (hdefaults : defaults.radix = .decimal) (h : read text = .ok (some l))
    (hagain : read (l.value.format (l.style.orElse defaults)) = .ok (some again))
    (hvalue : again.value = l.value) : again.style = l.style := by
  obtain ⟨r, hstyle, hdecimal⟩ := style_of_read h
  cases hinteger : l.value.integer? with
  | none =>
      obtain ⟨r', hstyle', hdecimal'⟩ := style_of_read hagain
      rw [hstyle, hstyle', hdecimal hinteger, hdecimal' (hvalue ▸ hinteger)]
  | some n =>
      have hradix : (l.style.orElse defaults).radix = r := by
        rw [Style.orElse_of_decimal hdefaults, hstyle]
      rw [Value.format_of_integer? hinteger, hradix, read_write] at hagain
      cases hagain
      exact hstyle.symm

end Literal

end ReversePolish
