import ReversePolish.Proofs.Chain
import ReversePolish.Proofs.Literal.Style
import ReversePolish.Proofs.Session.Entered

/-! # How items are shown

The input of an item reads as what was entered for it, with every integer in the radix in which it
was written. The result takes the radix of the literal at the start. -/

namespace ReversePolish

theorem Value.format_congr {s t : Style} (hradix : s.radix = t.radix)
    (hdigits : s.digits = t.digits) (v : Value) : v.format s = v.format t := by
  unfold format
  rw [hradix, hdigits]

/-! ## What is shown of a token -/

namespace Catalog

/-- A literal is shown in the radix in which it is written, with the given number of significant
digits for reals, and an operator under its name. -/
inductive Echoes (c : Catalog) (digits : ℕ) (token : String) : String → Prop where
  | literal {l : Literal} {r : Radix} (hread : Literal.read token = .ok (some l))
      (hradix : Literal.WrittenIn token r) :
      Echoes c digits token (l.value.format { radix := r, precision := some digits })
  | operator {op : Operator} (hread : Literal.read token = .ok none)
      (hfind : c.find? token = some op) : Echoes c digits token op.name

/-- The leaf of the token with which an input begins, and the radix that the result takes. -/
inductive Opens (c : Catalog) (token : String) : Fragment → Radix → Prop where
  | literal {l : Literal} {r : Radix} (hread : Literal.read token = .ok (some l))
      (hradix : Literal.WrittenIn token r) (style : Style) :
      Opens c token (.value l.value style) r
  | nullary {op : Operator} (hread : Literal.read token = .ok none)
      (hfind : c.find? token = some op) (harity : op.arity = 0) :
      Opens c token (.text op.name) .decimal

end Catalog

variable {catalog : Catalog} {settings : Settings}

/-! ## Input chains -/

namespace Chain

/-- Whether a chain reads as what was entered, and has the style that its first leaf gives it. -/
structure Recalls (catalog : Catalog) (settings : Settings) (entry : Entry) (c : Chain) :
    Prop where
  rendered : List.Forall₂ (catalog.Echoes (settings.realPrecision.getD 15)) entry c.rendered
  opens : ∃ token leaf radix, entry.head? = some token ∧ c.fragments.head? = some leaf ∧
    catalog.Opens token leaf radix ∧
    c.style.orElse settings.style = { radix, precision := settings.realPrecision }

theorem recalls_literal {token : String} {l : Literal}
    (hread : Literal.read token = .ok (some l)) :
    Recalls catalog settings [token] (literal l.value (l.style.orElse settings.style)) := by
  obtain ⟨r, hradix, hstyle⟩ := Literal.writtenIn_of_read hread
  have hasked : l.style.orElse settings.style =
      { radix := r, precision := settings.realPrecision } := by
    rw [Style.orElse_of_decimal rfl, hstyle]
    rfl
  have htext : l.value.format { radix := r, precision := settings.realPrecision } =
      l.value.format { radix := r, precision := some (settings.realPrecision.getD 15) } :=
    Value.format_congr rfl rfl l.value
  rw [hasked]
  constructor
  · rw [rendered_literal, htext]
    exact .cons (.literal hread hradix) .nil
  · refine ⟨token, _, r, rfl, by rw [fragments_literal]; rfl, .literal hread hradix _, ?_⟩
    rw [Style.orElse_of_decimal rfl]
    simp [literal, Settings.style]

theorem recalls_application {token : String} {op : Operator} {entries : List Entry}
    {operands : List Chain} (hread : Literal.read token = .ok none)
    (hfind : catalog.find? token = some op)
    (h : List.Forall₂ (Recalls catalog settings) entries operands)
    (harity : operands.length = op.arity) :
    Recalls catalog settings (entries.flatten ++ [token]) (application operands op.name) := by
  constructor
  · rw [rendered_application]
    have hoperands : List.Forall₂
        (List.Forall₂ (catalog.Echoes (settings.realPrecision.getD 15))) entries
        (operands.map Chain.rendered) :=
      List.forall₂_map_right_iff.mpr (h.imp fun _ _ hoperand => hoperand.rendered)
    exact List.rel_append (List.rel_flatten hoperands) (.cons (.operator hread hfind) .nil)
  · cases h with
    | nil =>
        refine ⟨token, _, .decimal, rfl, by rw [fragments_application]; rfl,
          .nullary hread hfind harity.symm, ?_⟩
        rfl
    | @cons entry c entries operands hfirst hrest =>
        obtain ⟨first, leaf, radix, hentry, hleaf, hopens, hstyle⟩ := hfirst.opens
        refine ⟨first, leaf, radix, ?_, ?_, hopens, hstyle⟩
        · simp [hentry]
        · simp [hleaf]

end Chain

/-! ## Items -/

/-- Whether an item is shown as what was entered for it. -/
structure Item.ShownAs (catalog : Catalog) (settings : Settings) (entry : Entry) (item : Item)
    (view : ItemView) : Prop where
  input : List.Forall₂ (catalog.Echoes (settings.realPrecision.getD 15)) entry view.input
  output : ∃ token leaf radix, entry.head? = some token ∧ item.input.fragments.head? = some leaf ∧
    catalog.Opens token leaf radix ∧ view.output =
      item.result.format { radix, precision := some (settings.realPrecision.getD 15) }

theorem Item.shownAs_of_recalls {entry : Entry} {item : Item}
    (h : item.input.Recalls catalog settings entry) :
    item.ShownAs catalog settings entry (item.view settings.style) := by
  obtain ⟨token, leaf, radix, hentry, hleaf, hopens, hstyle⟩ := h.opens
  refine ⟨h.rendered, token, leaf, radix, hentry, hleaf, hopens, ?_⟩
  rw [view, hstyle]
  exact Value.format_congr rfl rfl item.result

namespace Session

theorem traces_recalls (catalog : Catalog) (settings : Settings) (claims : String → Bool) :
    (start catalog settings claims).evaluator.Traces fun entry item =>
      item.input.Recalls catalog settings entry := by
  constructor
  case literal => exact fun token l hread => Chain.recalls_literal hread
  case result =>
    intro token op entries operands result hread hfind hoperands harity happly
    exact Chain.recalls_application hread hfind (List.forall₂_map_right_iff.mpr hoperands)
      (by rwa [List.length_map])

/-- After any lines every item on the stack is shown as what was entered for it: its input token by
token, and its result in the radix of the literal at the start, or in decimal if an operator without
operands stands there. -/
theorem shown_as_entered (catalog : Catalog) (settings : Settings) (claims : String → Bool)
    (lines : List String) :
    let first := start catalog settings claims
    let s := (first.submitAll lines).1
    s.view = s.stack.items.map (Item.view settings.style) ∧
      List.Forall₂ (fun entry item => item.ShownAs catalog settings entry (item.view settings.style))
        (first.entered ⟨[], [], []⟩ lines).present s.stack.items := by
  intro first s
  have hsettings : s.settings = settings := settings_submitAll first lines
  have hrecalls := forall₂_entered catalog settings claims
    (traces_recalls catalog settings claims) lines
  refine ⟨by rw [view, hsettings], ?_⟩
  exact hrecalls.imp fun _ _ h => Item.shownAs_of_recalls h

example :
    let first := start (Catalog.standard.toOption.getD .empty) {} fun _ => false
    let lines := ["0x10 3 + \\dup", "\\pop", "\\undo", "pi \\swap 2 *"]
    (first.entered ⟨[], [], []⟩ lines).present =
        [["0x10", "3", "+"], ["pi"], ["0x10", "3", "+", "2", "*"]] ∧
      (first.submitAll lines).1.view.map ItemView.output =
        ["0x13", "3.14159265358979", "0x26"] := by
  decide +kernel

end Session

end ReversePolish
