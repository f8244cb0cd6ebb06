import ReversePolish.Action
import ReversePolish.Operator.Basic
import ReversePolish.Text.Order

/-! # Catalogs of operators -/

namespace ReversePolish

/-- Operators that are registered together. -/
structure Library where
  id : Nat
  name : String
  operators : List Operator

/-- The registered operators and libraries, both in the order of registration. -/
structure Catalog where
  operators : List Operator := []
  /-- Each name or alias with the position of its operator, the newest first. -/
  index : List (String × Nat) := []
  libraries : List (Nat × String) := []

namespace Catalog

def empty : Catalog := {}

/-- All names and aliases. -/
def names (c : Catalog) : List String := c.operators.flatMap Operator.names

/-- The first of the names that is taken, or that stands twice in the list. -/
def firstTaken? (taken : List String) : List String → Option String
  | [] => none
  | name :: rest => if name ∈ taken then some name else firstTaken? (name :: taken) rest

end Catalog

/-- What is done to a catalog where it is. -/
abbrev CatalogM := Action Catalog

namespace CatalogM

/-- Adds an operator whose signatures agree and whose names are all new: first its names to the
index, then itself. -/
def register (op : Operator) : CatalogM Unit := do
  let c ← get
  if !op.wellFormed then throw (.invalidSignature op.name)
  else
    match Catalog.firstTaken? (c.index.map Prod.fst) op.names with
    | some name => throw (.duplicateOperatorName name)
    | none =>
      modify fun c => { c with index := op.names.map (·, c.operators.length) ++ c.index }
      modify fun c => { c with operators := c.operators ++ [op] }

/-- Registers operators up to the first that is refused. -/
def registerAll : List Operator → CatalogM Unit
  | [] => return ()
  | op :: ops => do
    register op
    registerAll ops

/-- Registers a library. If one of its operators is refused, those before it stay registered and
the library is not listed. -/
def add (lib : Library) : CatalogM Unit := do
  registerAll lib.operators
  modify fun c => { c with libraries := c.libraries ++ [(lib.id, lib.name)] }

end CatalogM

namespace Catalog

/-- The catalog with the operator, for those who give up the catalog when that is refused. -/
def register (c : Catalog) (op : Operator) : Except Error Catalog :=
  ((CatalogM.register op).attempt c).map Prod.fst

def registerAll (c : Catalog) (ops : List Operator) : Catalog × Except Error Unit :=
  (CatalogM.registerAll ops).outcome c

def add (c : Catalog) (lib : Library) : Catalog × Except Error Unit :=
  (CatalogM.add lib).outcome c

/-- The operator of exactly that name or alias. -/
def find? (c : Catalog) (name : String) : Option Operator := do
  let position ← c.index.lookup name
  c.operators[position]?

theorem mem_of_find? {c : Catalog} {name : String} {op : Operator} (h : c.find? name = some op) :
    op ∈ c.operators := by
  obtain ⟨position, -, hop⟩ := Option.bind_eq_some_iff.mp h
  exact List.mem_of_getElem? hop

/-- The names and aliases with the given start whose operator accepts the topmost kinds of a
stack, the shorter first. -/
def applicable (c : Catalog) (kinds : List Kind) (start : String) : List (String × Operator) :=
  let found := (c.operators.filter (·.applicableTo kinds)).flatMap fun op =>
    (op.names.filter (·.startsWith start)).map (·, op)
  found.mergeSort fun a b => Text.shorterFirst a.1 b.1

/-- Puts an operator behind those of its category, and a new category behind the others. -/
def fileUnder (op : Operator) : List (String × List Operator) → List (String × List Operator)
  | [] => [(op.category, [op])]
  | (name, ops) :: rest =>
    if name = op.category then (name, ops ++ [op]) :: rest else (name, ops) :: fileUnder op rest

/-- The operators by category, filed in the order of registration. -/
def categories (c : Catalog) : List (String × List Operator) :=
  c.operators.foldl (fun groups op => fileUnder op groups) []

end Catalog

end ReversePolish
