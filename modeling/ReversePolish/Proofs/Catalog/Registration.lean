import Mathlib.Data.List.Nodup
import ReversePolish.Catalog.Basic
import ReversePolish.Proofs.Action
import ReversePolish.Proofs.Outcome

/-! # Registration

Whatever is added to a catalog, and whether or not it is refused, the index leads from each name to
the one operator that has it. -/

namespace ReversePolish

/-- There are signatures, all of one length. -/
def Operator.HasArity (op : Operator) : Prop :=
  op.signatures ≠ [] ∧ ∃ n, ∀ sig ∈ op.signatures, sig.length = n

theorem Operator.wellFormed_iff {op : Operator} : op.wellFormed ↔ op.HasArity := by
  cases h : op.signatures with
  | nil => simp [wellFormed, HasArity, h]
  | cons sig sigs =>
      have harity : op.arity = sig.length := by simp [arity, h]
      simp only [wellFormed, HasArity, h, harity, List.isEmpty_cons, Bool.not_false, Bool.true_and,
        List.all_eq_true, decide_eq_true_eq, ne_eq, reduceCtorEq, not_false_eq_true, true_and]
      constructor
      · exact fun hall => ⟨sig.length, hall⟩
      · rintro ⟨n, hall⟩ other hother
        rw [hall other hother, hall sig List.mem_cons_self]

namespace Catalog

open ReversePolish.Action

/-- The index and the operators say the same, and no name stands twice. -/
structure Consistent (c : Catalog) : Prop where
  mem_index : ∀ name position, (name, position) ∈ c.index ↔
    ∃ op, c.operators[position]? = some op ∧ name ∈ op.names
  index_perm : (c.index.map Prod.fst).Perm c.names
  names_nodup : c.names.Nodup
  hasArity : ∀ op ∈ c.operators, op.HasArity

/-- The first of the names that is taken or has occurred before. -/
def FirstClash (taken names : List String) (name : String) : Prop :=
  ∃ before after, names = before ++ name :: after ∧ before.Nodup ∧ (∀ n ∈ before, n ∉ taken) ∧
    (name ∈ taken ∨ name ∈ before)

/-! ## The first name that is taken -/

theorem firstTaken?_eq_none {taken names : List String} :
    firstTaken? taken names = none ↔ names.Nodup ∧ ∀ name ∈ names, name ∉ taken := by
  induction names generalizing taken with
  | nil => simp [firstTaken?]
  | cons name names ih =>
      by_cases htaken : name ∈ taken
      · simp [firstTaken?, htaken]
      · rw [firstTaken?, if_neg htaken, ih, List.nodup_cons, List.forall_mem_cons]
        simp only [List.mem_cons, not_or]
        constructor
        · rintro ⟨hnodup, hfresh⟩
          exact ⟨⟨fun hname => (hfresh name hname).1 rfl, hnodup⟩, htaken,
            fun other hother => (hfresh other hother).2⟩
        · rintro ⟨⟨hname, hnodup⟩, -, hfresh⟩
          exact ⟨hnodup, fun other hother =>
            ⟨fun heq => hname (heq ▸ hother), hfresh other hother⟩⟩

theorem firstTaken?_eq_some {taken names : List String} {name : String} :
    firstTaken? taken names = some name ↔ ∃ before after, names = before ++ name :: after ∧
      firstTaken? taken before = none ∧ (name ∈ taken ∨ name ∈ before) := by
  induction names generalizing taken with
  | nil => simp [firstTaken?]
  | cons first names ih =>
      by_cases htaken : first ∈ taken
      · rw [firstTaken?, if_pos htaken]
        constructor
        · rintro ⟨⟩
          exact ⟨[], names, rfl, rfl, .inl htaken⟩
        · rintro ⟨_ | ⟨other, before⟩, after, hnames, hbefore, -⟩
          · exact congrArg some (List.cons.inj hnames).1
          · obtain ⟨rfl, -⟩ := List.cons.inj hnames
            rw [firstTaken?, if_pos htaken] at hbefore
            cases hbefore
      · rw [firstTaken?, if_neg htaken, ih]
        constructor
        · rintro ⟨before, after, rfl, hbefore, hclash⟩
          refine ⟨first :: before, after, rfl, by rwa [firstTaken?, if_neg htaken], ?_⟩
          rwa [List.mem_cons, or_left_comm, ← or_assoc, ← List.mem_cons]
        · rintro ⟨_ | ⟨other, before⟩, after, hnames, hbefore, hclash⟩
          · obtain ⟨rfl, -⟩ := List.cons.inj hnames
            exact absurd hclash (by simp [htaken])
          · obtain ⟨rfl, rfl⟩ := List.cons.inj hnames
            rw [firstTaken?, if_neg htaken] at hbefore
            refine ⟨before, after, rfl, hbefore, ?_⟩
            rwa [List.mem_cons, or_assoc, or_left_comm, ← List.mem_cons]

theorem firstTaken?_eq_some_iff {taken names : List String} {name : String} :
    firstTaken? taken names = some name ↔ FirstClash taken names name := by
  simp only [firstTaken?_eq_some, firstTaken?_eq_none, FirstClash, and_assoc]

theorem exists_firstClash {taken names : List String} :
    (∃ name, FirstClash taken names name) ↔ (∃ name ∈ names, name ∈ taken) ∨ ¬ names.Nodup := by
  simp only [← firstTaken?_eq_some_iff, ← Option.isSome_iff_exists, Option.isSome_iff_ne_none,
    ne_eq, firstTaken?_eq_none, not_and_or, not_forall, not_not, exists_prop]
  exact or_comm

theorem firstTaken?_congr {taken taken' : List String} (h : ∀ name, name ∈ taken ↔ name ∈ taken')
    (names : List String) : firstTaken? taken names = firstTaken? taken' names := by
  induction names generalizing taken taken' with
  | nil => rfl
  | cons name names ih =>
      have hcons : ∀ other, other ∈ name :: taken ↔ other ∈ name :: taken' := by simp [h]
      simp only [firstTaken?, h, ih hcons]

/-! ## Entries of the index -/

/-- Where no key stands twice, looking it up gives its entry. -/
theorem lookup_eq_some {index : List (String × ℕ)} (h : (index.map Prod.fst).Nodup)
    {name : String} {position : ℕ} :
    index.lookup name = some position ↔ (name, position) ∈ index := by
  induction index with
  | nil => simp
  | cons entry index ih =>
      obtain ⟨key, value⟩ := entry
      obtain ⟨hkey, hindex⟩ := List.nodup_cons.mp h
      by_cases hname : name = key
      · subst hname
        have hnew : (name, position) ∉ index := fun hmem => hkey (List.mem_map.mpr ⟨_, hmem, rfl⟩)
        simp [hnew, eq_comm]
      · rw [List.lookup_cons, beq_false_of_ne hname, ih hindex]
        simp [hname]

theorem getElem?_concat {ops : List Operator} {op other : Operator} {position : ℕ} :
    (ops ++ [op])[position]? = some other ↔
      ops[position]? = some other ∨ position = ops.length ∧ op = other := by
  rw [List.getElem?_append]
  split
  · next hlt => simp [Nat.ne_of_lt hlt]
  · next hle =>
    rw [List.getElem?_eq_none (Nat.le_of_not_lt hle), List.getElem?_singleton]
    grind

/-! ## One operator -/

theorem register_def (c : Catalog) (op : Operator) : c.register op =
    if !op.wellFormed then .error (.invalidSignature op.name)
    else
      match firstTaken? (c.index.map Prod.fst) op.names with
      | some name => .error (.duplicateOperatorName name)
      | none => .ok { c with
          operators := c.operators ++ [op]
          index := op.names.map (·, c.operators.length) ++ c.index } := by
  simp only [register, CatalogM.register, attempt_get_bind, attempt_ite, attempt_throw]
  split
  · rfl
  · cases firstTaken? (c.index.map Prod.fst) op.names <;> rfl

theorem register_eq_ok {c next : Catalog} {op : Operator} :
    c.register op = .ok next ↔
      op.HasArity ∧ firstTaken? (c.index.map Prod.fst) op.names = none ∧
        { c with
          operators := c.operators ++ [op]
          index := op.names.map (·, c.operators.length) ++ c.index } = next := by
  rw [register_def, ← Operator.wellFormed_iff]
  cases op.wellFormed with
  | false => simp
  | true => cases firstTaken? (c.index.map Prod.fst) op.names <;> simp

theorem register_eq_error {c : Catalog} {op : Operator} {e : Error} :
    c.register op = .error e ↔ (¬ op.HasArity ∧ e = .invalidSignature op.name) ∨
      op.HasArity ∧ ∃ name, firstTaken? (c.index.map Prod.fst) op.names = some name ∧
        e = .duplicateOperatorName name := by
  rw [register_def, ← Operator.wellFormed_iff]
  cases op.wellFormed with
  | false => simp [eq_comm]
  | true => cases firstTaken? (c.index.map Prod.fst) op.names <;> simp [eq_comm]

/-- The signatures and all of the names are checked before the index and the operators change, one
after the other. -/
theorem atomic_register (op : Operator) : (CatalogM.register op).Atomic := by
  refine looks_get.bind_atomic fun c => .ite (looks_throw _).atomic ?_
  split
  · exact (looks_throw _).atomic
  · exact ((succeeds_modify _).bind fun _ => succeeds_modify _).atomic

/-- A refused operator leaves the catalog as it is. -/
theorem outcome_register (c : Catalog) (op : Operator) :
    (CatalogM.register op).outcome c = match c.register op with
      | .ok next => (next, .ok ())
      | .error e => (c, .error e) := by
  simp only [outcome, register, attempt]
  cases h : CatalogM.register op c with
  | ok _ next => rfl
  | error e d =>
      rw [atomic_register op c e d h]
      rfl

namespace Consistent

variable {c : Catalog}

theorem empty : Catalog.empty.Consistent where
  mem_index := by simp [Catalog.empty]
  index_perm := List.Perm.nil
  names_nodup := List.nodup_nil
  hasArity := by simp [Catalog.empty]

theorem firstTaken?_index (h : c.Consistent) (names : List String) :
    firstTaken? (c.index.map Prod.fst) names = firstTaken? c.names names :=
  firstTaken?_congr (fun _ => h.index_perm.mem_iff) names

theorem find?_iff (h : c.Consistent) {name : String} {op : Operator} :
    c.find? name = some op ↔ op ∈ c.operators ∧ name ∈ op.names := by
  have hkeys : (c.index.map Prod.fst).Nodup := h.index_perm.nodup_iff.mpr h.names_nodup
  rw [find?, Option.bind_eq_bind, Option.bind_eq_some_iff, List.mem_iff_getElem?]
  simp only [lookup_eq_some hkeys, h.mem_index]
  constructor
  · rintro ⟨position, ⟨other, hother, hname⟩, hop⟩
    obtain rfl := Option.some.inj (hother.symm.trans hop)
    exact ⟨⟨position, hop⟩, hname⟩
  · rintro ⟨⟨position, hop⟩, hname⟩
    exact ⟨position, ⟨op, hop, hname⟩, hop⟩

theorem register (h : c.Consistent) {op : Operator} {next : Catalog}
    (hnext : c.register op = .ok next) : next.Consistent := by
  obtain ⟨harity, hnew, rfl⟩ := register_eq_ok.mp hnext
  rw [h.firstTaken?_index] at hnew
  obtain ⟨hnodup, hfresh⟩ := firstTaken?_eq_none.mp hnew
  have hnames : (c.operators ++ [op]).flatMap Operator.names = c.names ++ op.names := by
    simp [names]
  constructor
  -- The entries in front are those of the operator at the end.
  · intro name position
    simp only [List.mem_append, List.mem_map, Prod.mk.injEq, h.mem_index, getElem?_concat]
    constructor
    · rintro (⟨_, hname, rfl, rfl⟩ | ⟨other, hother, hname⟩)
      · exact ⟨op, .inr ⟨rfl, rfl⟩, hname⟩
      · exact ⟨other, .inl hother, hname⟩
    · rintro ⟨other, hother | ⟨rfl, rfl⟩, hname⟩
      · exact .inr ⟨other, hother, hname⟩
      · exact .inl ⟨name, hname, rfl, rfl⟩
  · rw [names, hnames, List.map_append, List.map_map]
    simpa [Function.comp_def] using List.perm_append_comm.trans (h.index_perm.append_right op.names)
  · rw [names, hnames]
    exact List.nodup_append'.mpr
      ⟨h.names_nodup, hnodup, fun name hname hname' => hfresh name hname' hname⟩
  · exact List.forall_mem_append.mpr ⟨h.hasArity, List.forall_mem_singleton.mpr harity⟩

end Consistent

/-! ## Several operators, and libraries -/

@[simp]
theorem registerAll_nil (c : Catalog) : c.registerAll [] = (c, .ok ()) := rfl

theorem registerAll_cons (c : Catalog) (op : Operator) (ops : List Operator) :
    c.registerAll (op :: ops) = match c.register op with
      | .ok next => next.registerAll ops
      | .error e => (c, .error e) := by
  simp only [registerAll, CatalogM.registerAll, outcome_bind, outcome_register]
  cases c.register op <;> rfl

theorem add_def (c : Catalog) (lib : Library) : c.add lib = match c.registerAll lib.operators with
    | (next, .ok _) => ({ next with libraries := next.libraries ++ [(lib.id, lib.name)] }, .ok ())
    | (next, .error e) => (next, .error e) := by
  rw [add, CatalogM.add, outcome_bind, registerAll]
  cases (CatalogM.registerAll lib.operators).outcome c with
  | mk next result => cases result <;> rfl

/-- What holds of a catalog and of the operators to come holds of the catalog that has them. -/
theorem registerAll_preserves {P : Catalog → Prop}
    {ops : List Operator} (hstep : ∀ c op next, op ∈ ops → P c → register c op = .ok next → P next)
    {c : Catalog} (h : P c) : P (c.registerAll ops).1 := by
  induction ops generalizing c with
  | nil => exact h
  | cons op ops ih =>
      rw [registerAll_cons]
      cases hop : c.register op with
      | error err => exact h
      | ok next =>
          have hnext := hstep c op next List.mem_cons_self h hop
          exact ih (fun c op next hop => hstep c op next (List.mem_cons_of_mem _ hop)) hnext

theorem registerAll_eq_ok {c next : Catalog} {ops : List Operator}
    (h : c.registerAll ops = (next, .ok ())) :
    next.operators = c.operators ++ ops ∧ next.libraries = c.libraries := by
  induction ops generalizing c with
  | nil =>
      obtain rfl := (Prod.mk.inj h).1
      exact ⟨(List.append_nil _).symm, rfl⟩
  | cons op ops ih =>
      rw [registerAll_cons] at h
      cases hop : c.register op with
      | error e => rw [hop] at h; cases h
      | ok mid =>
          rw [hop] at h
          obtain ⟨-, -, rfl⟩ := register_eq_ok.mp hop
          simpa using ih h

theorem registerAll_eq_error {c next : Catalog} {ops : List Operator} {e : Error}
    (h : c.registerAll ops = (next, .error e)) :
    ∃ before op after, ops = before ++ op :: after ∧ next.register op = .error e ∧
      next.operators = c.operators ++ before ∧ next.libraries = c.libraries := by
  induction ops generalizing c with
  | nil => cases h
  | cons op ops ih =>
      rw [registerAll_cons] at h
      cases hop : c.register op with
      | error e' =>
          rw [hop] at h
          obtain ⟨rfl, herror⟩ := Prod.mk.inj h
          obtain rfl := Except.error.inj herror
          exact ⟨[], op, ops, rfl, hop, (List.append_nil _).symm, rfl⟩
      | ok mid =>
          rw [hop] at h
          obtain ⟨before, refused, after, rfl, hrefused, hoperators, hlibraries⟩ := ih h
          obtain ⟨-, -, rfl⟩ := register_eq_ok.mp hop
          exact ⟨op :: before, refused, after, rfl, hrefused, by simpa using hoperators, hlibraries⟩

theorem add_eq (c : Catalog) (lib : Library) :
    (c.add lib).1.operators = (c.registerAll lib.operators).1.operators ∧
      (c.add lib).1.index = (c.registerAll lib.operators).1.index := by
  rw [add_def]
  split
  · next h => rw [h]; exact ⟨rfl, rfl⟩
  · next h => rw [h]; exact ⟨rfl, rfl⟩

/-! ## The contract -/

/-- An operator or a library that is to be added. -/
inductive Addition where
  | operator (op : Operator)
  | library (lib : Library)

/-- The catalog that an addition leaves behind, accepted or not. -/
def extend (c : Catalog) : Addition → Catalog
  | .operator op => ((CatalogM.register op).outcome c).1
  | .library lib => ((CatalogM.add lib).outcome c).1

/-- Each name leads to the one operator that has it. -/
structure Resolves (c : Catalog) : Prop where
  find?_iff : ∀ name op, c.find? name = some op ↔ op ∈ c.operators ∧ name ∈ op.names
  names_nodup : c.names.Nodup
  hasArity : ∀ op ∈ c.operators, op.HasArity

/-- An operator is accepted as a whole, or refused with the catalog as it was before. -/
structure Registers (c : Catalog) (op : Operator) : Prop where
  invalid_iff : ((CatalogM.register op).outcome c).2 = .error (.invalidSignature op.name) ↔
    ¬ op.HasArity
  duplicate_iff : (∃ name, ((CatalogM.register op).outcome c).2 =
      .error (.duplicateOperatorName name)) ↔
    op.HasArity ∧ ((∃ name ∈ op.names, ∃ other ∈ c.operators, name ∈ other.names) ∨
      ¬ op.names.Nodup)
  duplicate_first : ∀ name,
    ((CatalogM.register op).outcome c).2 = .error (.duplicateOperatorName name) →
      FirstClash c.names op.names name
  refused : ∀ left e, (CatalogM.register op).outcome c = (left, .error e) → left = c ∧
    (e = .invalidSignature op.name ∨ ∃ name, e = .duplicateOperatorName name)
  accepted : ∀ next, (CatalogM.register op).outcome c = (next, .ok ()) →
    next.operators = c.operators ++ [op] ∧ next.libraries = c.libraries

/-- A library is listed if all its operators are accepted, and else those before the refused one
stay. -/
structure Adds (c : Catalog) (lib : Library) : Prop where
  refused : ∀ left e, (CatalogM.add lib).outcome c = (left, .error e) → ∃ before op after,
    lib.operators = before ++ op :: after ∧
      (CatalogM.register op).outcome left = (left, .error e) ∧
      left.operators = c.operators ++ before ∧ left.libraries = c.libraries
  accepted : ∀ next, (CatalogM.add lib).outcome c = (next, .ok ()) →
    next.operators = c.operators ++ lib.operators ∧
      next.libraries = c.libraries ++ [(lib.id, lib.name)]

namespace Consistent

variable {c : Catalog}

theorem of_eq {next : Catalog} (h : c.Consistent) (hoperators : next.operators = c.operators)
    (hindex : next.index = c.index) : next.Consistent := by
  obtain ⟨hmem, hperm, hnodup, harity⟩ := h
  have hnames : next.names = c.names := by rw [names, hoperators, names]
  constructor
  · simpa only [hoperators, hindex] using hmem
  · simpa only [hindex, hnames] using hperm
  · rwa [hnames]
  · rwa [hoperators]

theorem registerAll (h : c.Consistent) (ops : List Operator) :
    (c.registerAll ops).1.Consistent :=
  registerAll_preserves (fun _ _ _ _ hc hnext => hc.register hnext) h

theorem add (h : c.Consistent) (lib : Library) : (c.add lib).1.Consistent :=
  (h.registerAll lib.operators).of_eq (add_eq c lib).1 (add_eq c lib).2

theorem extend (h : c.Consistent) (addition : Addition) : (c.extend addition).Consistent := by
  cases addition with
  | library lib => exact h.add lib
  | operator op =>
      rw [Catalog.extend, outcome_register]
      cases hop : c.register op with
      | ok next => exact h.register hop
      | error e => exact h

theorem extendAll (h : c.Consistent) (additions : List Addition) :
    (additions.foldl Catalog.extend c).Consistent := by
  induction additions generalizing c with
  | nil => exact h
  | cons addition additions ih => exact ih (h.extend addition)

theorem resolves (h : c.Consistent) : c.Resolves where
  find?_iff _ _ := h.find?_iff
  names_nodup := h.names_nodup
  hasArity := h.hasArity

theorem registers (h : c.Consistent) (op : Operator) : c.Registers op := by
  have herror {e : Error} :
      ((CatalogM.register op).outcome c).2 = .error e ↔ c.register op = .error e := by
    rw [outcome_register]
    cases c.register op <;> simp
  have hclash {name : String} : c.register op = .error (.duplicateOperatorName name) ↔
      op.HasArity ∧ FirstClash c.names op.names name := by
    simp [register_eq_error, h.firstTaken?_index, firstTaken?_eq_some_iff]
  constructor
  · simp [herror, register_eq_error]
  · simp only [herror, hclash, exists_and_left, exists_firstClash, names, List.mem_flatMap]
  · exact fun name hname => (hclash.mp (herror.mp hname)).2
  · intro left e hrefused
    rw [outcome_register] at hrefused
    cases he : c.register op with
    | ok next => simp [he] at hrefused
    | error e' =>
        simp only [he, Prod.mk.injEq, Except.error.injEq] at hrefused
        obtain ⟨rfl, rfl⟩ := hrefused
        refine ⟨rfl, ?_⟩
        rcases register_eq_error.mp he with ⟨-, he⟩ | ⟨-, name, -, he⟩
        · exact .inl he
        · exact .inr ⟨name, he⟩
  · intro next haccepted
    rw [outcome_register] at haccepted
    cases hnext : c.register op with
    | error e => simp [hnext] at haccepted
    | ok next' =>
        simp only [hnext, Prod.mk.injEq, and_true] at haccepted
        subst haccepted
        obtain ⟨-, -, rfl⟩ := register_eq_ok.mp hnext
        exact ⟨rfl, rfl⟩

end Consistent

theorem adds (c : Catalog) (lib : Library) : c.Adds lib := by
  constructor
  · intro left e h
    rw [← add, add_def] at h
    split at h
    · cases h
    · next hall =>
      obtain ⟨rfl, herror⟩ := Prod.mk.inj h
      obtain rfl := Except.error.inj herror
      obtain ⟨before, op, after, hops, hop, hleft⟩ := registerAll_eq_error hall
      refine ⟨before, op, after, hops, ?_, hleft⟩
      rw [outcome_register, hop]
  · intro next h
    rw [← add, add_def] at h
    split at h
    · next hall =>
      obtain ⟨rfl, -⟩ := Prod.mk.inj h
      obtain ⟨hoperators, hlibraries⟩ := registerAll_eq_ok hall
      exact ⟨hoperators, congrArg (· ++ _) hlibraries⟩
    · cases h

/-- After any additions to the empty catalog, refused ones among them, names resolve, and operators
and libraries are accepted or refused as the contract says. -/
theorem extended_keeps_contract (additions : List Addition) :
    let c := additions.foldl extend .empty
    c.Resolves ∧ (∀ op, c.Registers op) ∧ ∀ lib, c.Adds lib := by
  intro c
  have hc : c.Consistent := Consistent.empty.extendAll additions
  exact ⟨hc.resolves, hc.registers, adds c⟩

end Catalog

end ReversePolish
