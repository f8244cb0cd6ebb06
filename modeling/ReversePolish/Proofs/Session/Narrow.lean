import ReversePolish.Proofs.Catalog.Standard
import ReversePolish.Proofs.Chain
import ReversePolish.Proofs.Literal.Bracket
import ReversePolish.Proofs.Operator.Narrow
import ReversePolish.Proofs.Session.Derived

/-! # Sessions without integers of any size

Unless overflow promotes, an integer of any size comes of its literal or of its conversion. Lines
that have neither keep to the other values, on the stack, in the history and in what the items
remember of their input. -/

namespace ReversePolish

open Outcome

/-! ## Operators -/

namespace Catalog

theorem operators_keepNarrow : ∀ op ∈ Library.standard.flatMap Library.operators,
    op.name ≠ "bigint" → Evaluation.KeepsNarrow op.evaluate :=
  forall_standard (fun op hop _ => Arithmetic.operators_keepNarrow op hop)
    (fun op hop _ => Elementary.operators_keepNarrow op hop)
    (fun op hop _ => LinearAlgebra.operators_keepNarrow op hop) Conversion.operators_keepNarrow
    (fun op hop _ => Constants.operators_keepNarrow op hop)
    (fun op hop _ => UnitConversion.operators_keepNarrow op hop)

theorem names_of_conversion : ∀ op ∈ Library.standard.flatMap Library.operators,
    op.name = "bigint" → op.names = ["bigint"] := by
  decide +kernel

variable {c : Catalog} {op : Operator}

theorem Assembled.apply_returns (h : c.Assembled) (hop : op ∈ c.operators)
    (hname : op.name ≠ "bigint") {limits : Limits} (hexplicit : limits.promotion = .explicit)
    {args : List Value} (hargs : ∀ v ∈ args, v.IsNarrow) :
    Returns Value.IsNarrow (op.apply limits args) :=
  .ite (operators_keepNarrow op (h.operators_subset op hop) hname limits hexplicit args hargs)
    trivial

/-- The conversion goes by no other name. -/
theorem Assembled.eq_of_find?_conversion (h : c.Assembled) {token : String}
    (hfind : c.find? token = some op) (hname : op.name = "bigint") : token = "bigint" := by
  obtain ⟨hop, htoken⟩ := h.consistent.find?_iff.mp hfind
  rw [names_of_conversion op (h.operators_subset op hop) hname] at htoken
  exact List.mem_singleton.mp htoken

end Catalog

/-! ## Tokens and items -/

/-- Whether the token is not the name of the conversion, and if it is an integer, is a machine
integer. -/
def Token.isNarrow (token : String) : Bool :=
  token ≠ "bigint" &&
    match Literal.read token with
    | .ok (some l) => l.value.integer?.all fun n => -2 ^ 63 ≤ n && n < 2 ^ 63
    | _ => true

/-- Whether the line, if it splits into tokens, has no others. -/
def Token.isNarrowLine (line : String) : Bool :=
  match words line with
  | .ok tokens => tokens.all isNarrow
  | .error _ => true

/-- Whether neither the result nor a value of the input behind it is an integer of any size. -/
structure Item.IsNarrow (item : Item) : Prop where
  result : item.result.IsNarrow
  input : ∀ v style, .value v style ∈ item.input.fragments → v.IsNarrow

theorem Literal.isNarrow_of_read {token : String} {l : Literal}
    (hread : read token = .ok (some l)) (htoken : Token.isNarrow token) : l.value.IsNarrow := by
  have hfits (n : ℤ) (hn : l.value.integer? = some n) : -2 ^ 63 ≤ n ∧ n < 2 ^ 63 := by
    simpa [Token.isNarrow, hread, hn] using (Bool.and_eq_true_iff.mp htoken).2
  rcases read_cases hread with ⟨v, hv, rfl⟩ | ⟨name, -, rfl⟩ | hnumber
  · cases hv with
    | vector => exact Value.isNarrow_vector _ _
    | matrix => exact Value.isNarrow_matrix _ _
  · exact Value.isNarrow_unit name
  · cases hnumber with
    | integer =>
        have hfit := hfits _ (Value.integer?_ofInt _)
        rw [Value.IsNarrow, Value.kind_ofInt, if_pos hfit]
        exact nofun
    | real => exact Value.isNarrow_real _

theorem Evaluator.isNarrow_literalItem (e : Evaluator) {l : Literal} (h : l.value.IsNarrow) :
    (e.literalItem l).IsNarrow := by
  refine ⟨h, ?_⟩
  simpa [literalItem] using h

theorem Stack.isNarrow_resultItem {op : Operator} {operands : List Item} {result : Value}
    (hoperands : ∀ item ∈ operands, item.IsNarrow) (hresult : result.IsNarrow) :
    (resultItem op operands result).IsNarrow := by
  refine ⟨hresult, fun v style hv => ?_⟩
  simp only [resultItem, Chain.fragments_application, List.mem_append, List.mem_flatMap,
    List.mem_map, List.mem_singleton, reduceCtorEq, or_false, exists_exists_and_eq_and] at hv
  obtain ⟨item, hitem, hv⟩ := hv
  exact (hoperands item hitem).input v style hv

/-! ## Steps and runs -/

namespace Evaluator

variable {e : Evaluator}

theorem isNarrow_step (hcatalog : e.catalog.Assembled)
    (hexplicit : e.limits.promotion = .explicit) {token : String} (htoken : Token.isNarrow token)
    {d d' : Draft} (hd : ∀ item ∈ d.stack.items, item.IsNarrow) (h : e.step d token = .ok d') :
    ∀ item ∈ d'.stack.items, item.IsNarrow := by
  refine forall_items_step (fun l hread => ?_) ?_ hd h
  · exact e.isNarrow_literalItem (Literal.isNarrow_of_read hread htoken)
  · intro op operands result hfind _ hoperands happly
    have hname : op.name ≠ "bigint" := by
      intro hname
      rw [hcatalog.eq_of_find?_conversion hfind hname] at htoken
      cases htoken
    have hargs : ∀ v ∈ operands.map Item.result, v.IsNarrow :=
      List.forall_mem_map.mpr fun item hitem => (hoperands item hitem).result
    have hresult := hcatalog.apply_returns (Catalog.mem_of_find? hfind) hname hexplicit hargs
    exact Stack.isNarrow_resultItem hoperands (hresult.of_eq_ok happly)

theorem isNarrow_run (hcatalog : e.catalog.Assembled)
    (hexplicit : e.limits.promotion = .explicit) {s : Stack} {tokens : List String} {d : Draft}
    (htokens : ∀ token ∈ tokens, Token.isNarrow token) (hs : ∀ item ∈ s.items, item.IsNarrow)
    (h : e.run s tokens = .ok d) : ∀ item ∈ d.stack.items, item.IsNarrow :=
  foldlM_preserves_of_mem (P := fun d => ∀ item ∈ d.stack.items, item.IsNarrow)
    (fun _ token htoken _ hd hstep =>
      isNarrow_step hcatalog hexplicit (htokens token htoken) hd hstep) hs h

end Evaluator

namespace Session

/-- Whether no item of the session, now or in its history, has to do with integers of any size. -/
def IsNarrow (s : Session) : Prop :=
  s.timeline.All fun items => ∀ item ∈ items, item.IsNarrow

theorem IsNarrow.submit {s : Session} (h : s.IsNarrow) (hcatalog : s.evaluator.catalog.Assembled)
    (hexplicit : s.evaluator.limits.promotion = .explicit) {line : String}
    (hline : Token.isNarrowLine line) : (s.submit line).session.IsNarrow := by
  refine all_submit_of_words h line fun tokens d hwords hrun => ?_
  rw [Token.isNarrowLine, hwords] at hline
  exact Evaluator.isNarrow_run hcatalog hexplicit (List.all_eq_true.mp hline) h.present hrun

/-- Unless overflow promotes, no standard operator but the conversion takes values none of which is
an integer of any size to one that is; and lines without the conversion, whose integers are machine
integers, leave no such value on the stack, in the history or in an input chain. -/
theorem explicit_promotion_stays_narrow {catalog : Catalog} (hcatalog : catalog.Assembled) :
    (∀ op ∈ catalog.operators, op.name ≠ "bigint" → ∀ limits : Limits,
      limits.promotion = .explicit → ∀ args, (∀ v ∈ args, Value.IsNarrow v) →
      ∀ result, op.apply limits args = .ok result → result.IsNarrow) ∧
    ∀ settings : Settings, settings.promotion = .explicit → ∀ claims lines,
      (∀ line ∈ lines, Token.isNarrowLine line) →
      ((start catalog settings claims).submitAll lines).1.IsNarrow := by
  constructor
  · intro op hop hname limits hexplicit args hargs result hresult
    exact (hcatalog.apply_returns hop hname hexplicit hargs).of_eq_ok hresult
  · intro settings hexplicit claims lines hlines
    let first := start catalog settings claims
    have hstart : first.evaluator = first.evaluator ∧ first.IsNarrow :=
      ⟨rfl, List.forall_mem_nil _, List.forall_mem_nil _, List.forall_mem_nil _⟩
    have hstep (s : Session) (line : String) (hline : line ∈ lines)
        (h : s.evaluator = first.evaluator ∧ s.IsNarrow) :
        (s.submit line).session.evaluator = first.evaluator ∧ (s.submit line).session.IsNarrow :=
      ⟨(evaluator_submit s line).trans h.1,
        h.2.submit (h.1 ▸ hcatalog) (h.1 ▸ hexplicit) (hlines line hline)⟩
    exact (submitAll_preserves_of_mem hstep hstart).2

/-- At the greatest machine integer, with a line that overflows among others. -/
theorem explicit_promotion_stays_narrow_at_greatest_word :
    let catalog := Catalog.standard.toOption.getD .empty
    let add := Arithmetic.operators[0]
    let greatest : Value := .int Int64.maxValue
    let lines := ["9223372036854775807", "1 +", "-1 +", "\\undo"]
    catalog.Assembled ∧
      (∀ result, add.apply ⟨.explicit, 64⟩ [greatest, .int (-1)] = .ok result → result.IsNarrow) ∧
      (∀ line ∈ lines, Token.isNarrowLine line) ∧
      ((start catalog { promotion := .explicit } fun _ => false).submitAll lines).1.IsNarrow := by
  intro catalog add greatest lines
  have hcatalog : catalog.Assembled :=
    Catalog.assembled_of_ofLibraries (fun _ h => h) Catalog.standard_eq
  have hadd : add ∈ catalog.operators :=
    Catalog.operators_of_standard Catalog.standard_eq ▸
      List.mem_flatMap_of_mem List.mem_cons_self (List.getElem_mem _)
  have hargs : ∀ v ∈ [greatest, .int (-1)], Value.IsNarrow v := by simp [greatest]
  have hlines : ∀ line ∈ lines, Token.isNarrowLine line := by decide +kernel
  obtain ⟨hoperators, hruns⟩ := explicit_promotion_stays_narrow hcatalog
  exact ⟨hcatalog, hoperators add hadd (by decide) ⟨.explicit, 64⟩ rfl _ hargs, hlines,
    hruns { promotion := .explicit } rfl _ lines hlines⟩

end Session

end ReversePolish
