import Mathlib.Data.List.Nodup
import ReversePolish.Catalog.Basic
import ReversePolish.Proofs.Text.Order

/-! # The operators that apply to a stack

The catalog lists every name that begins as asked for and whose operator accepts what is on top,
once, and the short ones first. -/

namespace ReversePolish.Catalog

variable (c : Catalog) (kinds : List Kind) (start : String)

theorem mem_applicable {name : String} {op : Operator} :
    (name, op) ∈ c.applicable kinds start ↔
      op ∈ c.operators ∧ op.applicableTo kinds ∧ name ∈ op.names ∧ name.startsWith start := by
  simp only [applicable, List.mem_mergeSort, List.mem_flatMap, List.mem_filter, List.mem_map,
    Prod.mk.injEq]
  constructor
  · rintro ⟨op, ⟨hop, happly⟩, name, ⟨hname, hstart⟩, rfl, rfl⟩
    exact ⟨hop, happly, hname, hstart⟩
  · rintro ⟨hop, happly, hname, hstart⟩
    exact ⟨op, ⟨hop, happly⟩, name, ⟨hname, hstart⟩, rfl, rfl⟩

theorem mem_map_fst_applicable {name : String} :
    name ∈ (c.applicable kinds start).map Prod.fst ↔
      ∃ op ∈ c.operators, name ∈ op.names ∧ name.startsWith start ∧ op.applicableTo kinds := by
  rw [List.mem_map]
  constructor
  · rintro ⟨⟨name, op⟩, hmem, rfl⟩
    obtain ⟨hop, happly, hname, hstart⟩ := (c.mem_applicable kinds start).mp hmem
    exact ⟨op, hop, hname, hstart, happly⟩
  · rintro ⟨op, hop, hname, hstart, happly⟩
    exact ⟨(name, op), (c.mem_applicable kinds start).mpr ⟨hop, happly, hname, hstart⟩, rfl⟩

/-- The names that are found stand in the order in which they are registered. -/
theorem found_sublist (ops : List Operator) :
    (((ops.filter (·.applicableTo kinds)).flatMap fun op =>
      (op.names.filter (·.startsWith start)).map (·, op)).map Prod.fst).Sublist
        (ops.flatMap Operator.names) := by
  induction ops with
  | nil => exact .slnil
  | cons op ops ih =>
      have hnames : ((op.names.filter (·.startsWith start)).map (·, op)).map Prod.fst =
          op.names.filter (·.startsWith start) := by
        rw [List.map_map]
        exact List.map_id _
      rw [List.filter_cons, List.flatMap_cons]
      split
      · rw [List.flatMap_cons, List.map_append, hnames]
        exact List.filter_sublist.append ih
      · exact ih.trans (List.sublist_append_right _ _)

theorem nodup_map_fst_applicable (h : c.names.Nodup) :
    ((c.applicable kinds start).map Prod.fst).Nodup := by
  unfold applicable
  refine ((List.mergeSort_perm _ _).map Prod.fst).nodup_iff.mpr ?_
  exact h.sublist (found_sublist kinds start c.operators)

theorem pairwise_map_fst_applicable :
    ((c.applicable kinds start).map Prod.fst).Pairwise fun a b => Text.shorterFirst a b :=
  List.pairwise_map.mpr (Text.pairwise_mergeSort_shorterFirst Prod.fst _)

end ReversePolish.Catalog
