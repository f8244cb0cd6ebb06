import ReversePolish.Catalog.Standard
import ReversePolish.Proofs.Catalog.Registration

/-! # Catalogs put together from the standard libraries

No two operators share a name, so that each is found under its own. -/

namespace ReversePolish.Catalog

/-- A catalog to which only standard libraries were added, in whatever order and whether or not an
addition failed. -/
inductive Assembled : Catalog → Prop where
  | empty : Assembled .empty
  | add {c : Catalog} {lib : Library} (h : Assembled c) (hlib : lib ∈ Library.standard) :
      Assembled (c.add lib).1

/-- What holds of the operators of each library holds of those of the standard catalog. -/
theorem forall_standard {P : Operator → Prop} (harithmetic : ∀ op ∈ Arithmetic.operators, P op)
    (helementary : ∀ op ∈ Elementary.operators, P op)
    (hlinear : ∀ op ∈ LinearAlgebra.operators, P op)
    (hconversion : ∀ op ∈ Conversion.operators, P op)
    (hconstants : ∀ op ∈ Constants.operators, P op)
    (hunits : ∀ op ∈ UnitConversion.operators, P op) :
    ∀ op ∈ Library.standard.flatMap Library.operators, P op := by
  intro op hop
  obtain ⟨lib, hlib, hop⟩ := List.mem_flatMap.mp hop
  simp only [Library.standard, List.mem_cons, List.not_mem_nil, or_false] at hlib
  rcases hlib with rfl | rfl | rfl | rfl | rfl | rfl
  · exact harithmetic op hop
  · exact helementary op hop
  · exact hlinear op hop
  · exact hconversion op hop
  · exact hconstants op hop
  · exact hunits op hop

namespace Assembled

variable {c : Catalog}

theorem consistent (h : c.Assembled) : c.Consistent := by
  induction h with
  | empty => exact .empty
  | @add c lib h hlib ih => exact ih.add lib

theorem names_nodup (h : c.Assembled) : c.names.Nodup := h.consistent.names_nodup

theorem operators_subset (h : c.Assembled) :
    ∀ op ∈ c.operators, op ∈ Library.standard.flatMap Library.operators := by
  induction h with
  | empty => simp [Catalog.empty]
  | @add c lib h hlib ih =>
      rw [(add_eq c lib).1]
      refine registerAll_preserves (P := fun c => ∀ op ∈ c.operators,
        op ∈ Library.standard.flatMap Library.operators) ?_ ih
      intro c op next hop hc hnext
      obtain ⟨-, -, rfl⟩ := register_eq_ok.mp hnext
      exact List.forall_mem_append.mpr ⟨hc, by simpa using ⟨lib, hlib, hop⟩⟩

theorem find?_eq_some (h : c.Assembled) {op : Operator} (hop : op ∈ c.operators) {name : String}
    (hname : name ∈ op.names) : c.find? name = some op :=
  h.consistent.find?_iff.mpr ⟨hop, hname⟩

theorem find?_name (h : c.Assembled) {op : Operator} (hop : op ∈ c.operators) :
    c.find? op.name = some op :=
  h.find?_eq_some hop List.mem_cons_self

/-- No two operators share a name. -/
theorem eq_of_mem_names (h : c.Assembled) {op other : Operator} (hop : op ∈ c.operators)
    (hother : other ∈ c.operators) {name : String} (hname : name ∈ op.names)
    (hname' : name ∈ other.names) : op = other :=
  Option.some.inj ((h.find?_eq_some hop hname).symm.trans (h.find?_eq_some hother hname'))

end Assembled

theorem assembled_foldlM {libs : List Library} (hlibs : ∀ lib ∈ libs, lib ∈ Library.standard)
    {first c : Catalog} (hfirst : first.Assembled)
    (h : libs.foldlM (fun c lib => match c.add lib with
      | (next, .ok _) => .ok next
      | (_, .error e) => .error e) first = Except.ok c) : c.Assembled := by
  induction libs generalizing first with
  | nil =>
      cases h
      exact hfirst
  | cons lib libs ih =>
      obtain ⟨hlib, hlibs⟩ := List.forall_mem_cons.mp hlibs
      obtain ⟨next, hnext, h⟩ := Outcome.bind_eq_ok.mp h
      refine ih hlibs ?_ h
      have hadd := hfirst.add hlib
      dsimp only at hnext
      split at hnext
      · next hresult =>
          cases hnext
          rwa [hresult] at hadd
      · cases hnext

theorem assembled_of_ofLibraries {libs : List Library}
    (hlibs : ∀ lib ∈ libs, lib ∈ Library.standard) {c : Catalog} (h : ofLibraries libs = .ok c) :
    c.Assembled :=
  assembled_foldlM hlibs .empty h

end ReversePolish.Catalog
