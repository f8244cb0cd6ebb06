import ReversePolish.Proofs.Catalog.Safe
import ReversePolish.Proofs.Catalog.Standard
import ReversePolish.Proofs.Literal.Safe
import ReversePolish.Proofs.Session.Derived

/-! # Sessions over the standard libraries show no internal errors

Lines are to blame for every error, since operators meet only arguments that their signatures
accept, and only units of the catalog. -/

namespace ReversePolish

open Outcome

/-! ## One token -/

namespace Evaluator

variable {e : Evaluator}

theorem Derives.known (hcatalog : e.catalog.Assembled) {item : Item} (h : e.Derives item) :
    item.result.Known := by
  induction h with
  | @literal token l hread =>
      have hsafe := Literal.read_safe token
      rw [hread] at hsafe
      exact hsafe l rfl
  | @result op operands result hop _ _ happly ih =>
      have hknown : ∀ v ∈ operands.map Item.result, Value.Known v := by
        simpa using ih
      have hsafe := (hcatalog.isSafe hop).apply e.limits hknown
      rwa [happly] at hsafe

theorem Means.isOrdinary {token : String} {err : Error} (h : e.Means token (.error err)) :
    err.isOrdinary := by
  cases h with
  | malformed hread => exact (Literal.read_safe token).isOrdinary hread
  | unknownToken => rfl
  | unknownCommand => rfl

theorem Refuses.isOrdinary (hcatalog : e.catalog.Assembled) {d : Draft} {token : String}
    {err : Error} (hd : e.DerivesAll d.stack.items) (h : e.Refuses d token err) :
    err.isOrdinary := by
  cases h with
  | meaningless h => exact h.isOrdinary
  | noRoom => rfl
  | fewOperands => rfl
  | @undefined op _ h _ happly =>
      have hop : op ∈ e.catalog.operators := by
        cases h with
        | operator _ hfind => exact Catalog.mem_of_find? hfind
      -- The draft holds derived items only, also in the middle of a line.
      have hknown : ∀ v ∈ d.stack.operands op, Value.Known v := by
        intro v hv
        obtain ⟨item, hitem, rfl⟩ := List.mem_map.mp hv
        exact (hd item (List.mem_of_mem_drop hitem)).known hcatalog
      exact ((hcatalog.isSafe hop).apply e.limits hknown).isOrdinary happly
  | noRoomForResult => rfl
  | command _ hstill hrun =>
      rcases Stack.runCommand_refused hstill hrun with ⟨_, _, _, rfl⟩ | ⟨size, hroom⟩
      · rfl
      · obtain ⟨limit, -, -, rfl⟩ := Stack.checkDepth_eq_error.mp hroom
        rfl
  | notAlone => rfl

end Evaluator

/-! ## Any number of lines -/

namespace Session

theorem Fails.isOrdinary {s : Session} (hcatalog : s.evaluator.catalog.Assembled)
    (hs : s.evaluator.DerivesAll s.stack.items) {line : String} {err : Error}
    (h : s.Fails line err) : err.isOrdinary := by
  cases h with
  | unscannable h => exact (Token.scan_raises 0 line.toList).safe.isOrdinary h
  | refused _ _ hrun h => exact h.isOrdinary hcatalog (Evaluator.derivesAll_run hs hrun)

/-- Whatever was submitted before, no line fails with an error that is internal, of the
registration of operators, or of an unknown unit among the arguments of an operator. -/
theorem no_internal_error {catalog : Catalog} (hcatalog : catalog.Assembled) (settings : Settings)
    (claims : String → Bool) (lines : List String) (line : String) {err : Error}
    (h : (((start catalog settings claims).submitAll lines).1.submit line).outcome = .error err) :
    err.kind ∉ [ErrorKind.internal, .duplicateOperatorName, .invalidSignature] ∧
      ∀ op name, err ≠ .domain op (.unknownUnit name) := by
  obtain ⟨hevaluator, hderived⟩ := derives_submitAll catalog settings claims lines
  generalize ((start catalog settings claims).submitAll lines).1 = s at h hevaluator hderived
  refine Error.isOrdinary_iff.mp ((evaluate_eq_error.mp (outcome_eq_error.mp h)).isOrdinary ?_ ?_)
  · rw [hevaluator]
    exact hcatalog
  · rw [hevaluator]
    exact hderived.present

/-- A vector does not convert between temperatures, whose units have offsets. -/
theorem no_internal_error_between_temperatures :
    let catalog := Catalog.standard.toOption.getD .empty
    let lines := ["[10, 20] _F _C"]
    let mismatch := Error.typeMismatch "convert" [.vector .two, .unit, .unit]
    (((start catalog {} fun _ => false).submitAll lines).1.submit "to").outcome =
        .error mismatch ∧
      mismatch.kind ∉ [ErrorKind.internal, .duplicateOperatorName, .invalidSignature] ∧
      ∀ op name, mismatch ≠ .domain op (.unknownUnit name) := by
  intro catalog lines mismatch
  have hcatalog : catalog.Assembled :=
    Catalog.assembled_of_ofLibraries (fun _ h => h) Catalog.standard_eq
  have hline : (((start catalog {} fun _ => false).submitAll lines).1.submit "to").outcome =
      .error mismatch := by decide +kernel
  exact ⟨hline, no_internal_error hcatalog {} (fun _ => false) lines "to" hline⟩

end Session

end ReversePolish
