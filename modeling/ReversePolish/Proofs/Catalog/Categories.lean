import Mathlib.Data.List.Nodup
import ReversePolish.Catalog.Basic

/-! # Operators by category

Operators are filed under their categories one after the other. In the end every category stands
once, by its first operator, and holds its operators in the order of registration. -/

namespace ReversePolish.Catalog

variable {op : Operator} {ops : List Operator} {groups : List (String × List Operator)}

/-! ## Filing an operator -/

theorem fileUnder_of_notMem (h : op.category ∉ groups.map Prod.fst) :
    fileUnder op groups = groups ++ [(op.category, [op])] := by
  induction groups with
  | nil => rfl
  | cons group rest ih =>
      rw [List.map_cons, List.mem_cons, not_or] at h
      rw [fileUnder, if_neg (Ne.symm h.1), ih h.2, List.cons_append]

theorem fileUnder_of_mem (hnodup : (groups.map Prod.fst).Nodup)
    (h : op.category ∈ groups.map Prod.fst) :
    fileUnder op groups =
      groups.map fun group =>
        (group.1, if group.1 = op.category then group.2 ++ [op] else group.2) := by
  induction groups with
  | nil => simp at h
  | cons group rest ih =>
      obtain ⟨hfirst, hrest⟩ := List.nodup_cons.mp hnodup
      by_cases heq : group.1 = op.category
      · have hkept : rest.map (fun group =>
            (group.1, if group.1 = op.category then group.2 ++ [op] else group.2)) = rest := by
          refine (List.map_congr_left fun other hother => ?_).trans (List.map_id rest)
          have hne : other.1 ≠ op.category := fun hsame =>
            hfirst (heq ▸ hsame ▸ List.mem_map_of_mem hother)
          simp [hne]
        rw [fileUnder, if_pos heq, List.map_cons, if_pos heq, hkept]
      · have hmem : op.category ∈ rest.map Prod.fst := by simpa [Ne.symm heq] using h
        rw [fileUnder, if_neg heq, List.map_cons, if_neg heq, ih hrest hmem]

/-- The operator is added, and none is lost. -/
theorem flatMap_fileUnder_perm (op : Operator) (groups : List (String × List Operator)) :
    ((fileUnder op groups).flatMap Prod.snd).Perm (groups.flatMap Prod.snd ++ [op]) := by
  induction groups with
  | nil => simp [fileUnder]
  | cons group rest ih =>
      rw [fileUnder, List.flatMap_cons, List.append_assoc]
      split
      · rw [List.flatMap_cons, List.append_assoc]
        exact List.perm_append_comm.append_left group.2
      · rw [List.flatMap_cons]
        exact ih.append_left group.2

/-! ## Filing all operators -/

/-- Each category of the operators stands once, in the order in which they first appear among the
operators, and holds its operators in their order. -/
structure Groups (ops : List Operator) (groups : List (String × List Operator)) : Prop where
  names_nodup : (groups.map Prod.fst).Nodup
  mem_names (name : String) : name ∈ groups.map Prod.fst ↔ ∃ op ∈ ops, op.category = name
  first_appearance : (groups.map Prod.fst).Pairwise fun name later =>
    (ops.map Operator.category).idxOf name < (ops.map Operator.category).idxOf later
  operators_eq : ∀ group ∈ groups, group.2 = ops.filter (·.category = group.1)
  perm : (groups.flatMap Prod.snd).Perm ops

namespace Groups

theorem nil : Groups [] [] where
  names_nodup := List.nodup_nil
  mem_names _ := by simp
  first_appearance := List.Pairwise.nil
  operators_eq := by simp
  perm := List.Perm.nil

section Step

variable (h : Groups ops groups)

include h

theorem mem_names_iff_mem_map (name : String) :
    name ∈ groups.map Prod.fst ↔ name ∈ ops.map Operator.category := by
  rw [h.mem_names, List.mem_map]

/-- Where a category first appears does not change. -/
theorem first_appearance_append (op : Operator) : (groups.map Prod.fst).Pairwise fun name later =>
    ((ops ++ [op]).map Operator.category).idxOf name <
      ((ops ++ [op]).map Operator.category).idxOf later := by
  refine h.first_appearance.imp_of_mem fun hname hlater hlt => ?_
  rwa [List.map_append, List.idxOf_append_of_mem ((h.mem_names_iff_mem_map _).mp hname),
    List.idxOf_append_of_mem ((h.mem_names_iff_mem_map _).mp hlater)]

theorem fileUnder_known (hknown : op.category ∈ groups.map Prod.fst) :
    Groups (ops ++ [op]) (fileUnder op groups) := by
  have hperm := (flatMap_fileUnder_perm op groups).trans (h.perm.append_right [op])
  rw [fileUnder_of_mem h.names_nodup hknown] at hperm ⊢
  have hnames : (groups.map fun group =>
      (group.1, if group.1 = op.category then group.2 ++ [op] else group.2)).map Prod.fst =
        groups.map Prod.fst := by
    rw [List.map_map]
    rfl
  refine ⟨hnames ▸ h.names_nodup, fun name => ?_, hnames ▸ h.first_appearance_append op, ?_, hperm⟩
  · rw [hnames, h.mem_names]
    constructor
    · rintro ⟨found, hfound, rfl⟩
      exact ⟨found, List.mem_append_left _ hfound, rfl⟩
    · rintro ⟨found, hfound, rfl⟩
      rcases List.mem_append.mp hfound with hfound | hlast
      · exact ⟨found, hfound, rfl⟩
      · rw [List.mem_singleton.mp hlast]
        exact (h.mem_names _).mp hknown
  · intro group hgroup
    obtain ⟨before, hbefore, rfl⟩ := List.mem_map.mp hgroup
    have hkept := h.operators_eq before hbefore
    by_cases hcategory : before.1 = op.category
    · simp [hcategory, hkept]
    · simp [hcategory, hkept, Ne.symm hcategory]

theorem fileUnder_new (hnew : op.category ∉ groups.map Prod.fst) :
    Groups (ops ++ [op]) (fileUnder op groups) := by
  have hperm := (flatMap_fileUnder_perm op groups).trans (h.perm.append_right [op])
  have hops : op.category ∉ ops.map Operator.category := mt (h.mem_names_iff_mem_map _).mpr hnew
  have hnames : (groups ++ [(op.category, [op])]).map Prod.fst =
      groups.map Prod.fst ++ [op.category] := List.map_append
  rw [fileUnder_of_notMem hnew] at hperm ⊢
  refine ⟨?_, fun name => ?_, ?_, ?_, hperm⟩
  · rw [hnames]
    exact h.names_nodup.append (List.nodup_singleton _) (by simpa using hnew)
  · rw [hnames, List.mem_append, h.mem_names]
    simp [or_and_right, exists_or, eq_comm]
  · rw [hnames]
    refine List.pairwise_append.mpr
      ⟨h.first_appearance_append op, List.pairwise_singleton _ _, fun name hname later hlater => ?_⟩
    have hname := (h.mem_names_iff_mem_map name).mp hname
    obtain rfl : later = op.category := by simpa using hlater
    rw [List.map_append, List.idxOf_append_of_mem hname, List.idxOf_append_of_notMem hops]
    have hlt := List.idxOf_lt_length_of_mem hname
    omega
  · intro group hgroup
    rw [List.filter_append]
    rcases List.mem_append.mp hgroup with hold | hlast
    · have hne : op.category ≠ group.1 := fun heq => hnew (heq ▸ List.mem_map_of_mem hold)
      simp [hne, h.operators_eq group hold]
    · obtain rfl := List.mem_singleton.mp hlast
      have hnone : ops.filter (·.category = op.category) = [] := by
        rw [List.filter_eq_nil_iff]
        intro found hfound hcategory
        exact hops (of_decide_eq_true hcategory ▸ List.mem_map_of_mem hfound)
      simp [hnone]

theorem fileUnder (op : Operator) : Groups (ops ++ [op]) (fileUnder op groups) := by
  by_cases hknown : op.category ∈ groups.map Prod.fst
  · exact h.fileUnder_known hknown
  · exact h.fileUnder_new hknown

omit h in
theorem foldl (h : Groups ops groups) (rest : List Operator) :
    Groups (ops ++ rest) (rest.foldl (fun groups op => Catalog.fileUnder op groups) groups) := by
  induction rest generalizing ops groups with
  | nil => simpa using h
  | cons op rest ih =>
      have hfiled := ih (h.fileUnder op)
      rwa [List.append_assoc] at hfiled

end Step

end Groups

/-- The categories hold the registered operators, each once and under its own category. -/
theorem categories_group_operators (c : Catalog) : Groups c.operators c.categories :=
  Groups.nil.foldl c.operators

end ReversePolish.Catalog
