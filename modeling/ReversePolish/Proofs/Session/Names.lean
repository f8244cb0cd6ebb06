import ReversePolish.Proofs.Catalog.Assembled
import ReversePolish.Proofs.Session.Meaning
import ReversePolish.Proofs.Session.Submission

/-! # The names of the standard operators

A name or alias is a line of one word, is no literal, and means the operator that has it. -/

namespace ReversePolish

open Outcome

theorem Catalog.standard_names : ∀ op ∈ Library.standard.flatMap Library.operators,
    ∀ name ∈ op.names, Token.words name = .ok [name] ∧
      (Literal.read name).map Option.isNone = .ok true := by
  decide +kernel

variable {op : Operator} {name : String}

namespace Catalog.Assembled

variable {c : Catalog}

theorem words_name (h : c.Assembled) (hop : op ∈ c.operators) (hname : name ∈ op.names) :
    Token.words name = .ok [name] :=
  (standard_names op (h.operators_subset op hop) name hname).1

theorem read_name (h : c.Assembled) (hop : op ∈ c.operators) (hname : name ∈ op.names) :
    Literal.read name = .ok none := by
  have hread := (standard_names op (h.operators_subset op hop) name hname).2
  obtain ⟨l?, hread, hnone⟩ := map_eq_ok.mp hread
  rw [hread, Option.isNone_iff_eq_none.mp hnone]

end Catalog.Assembled

theorem Evaluator.means_name {e : Evaluator} (h : e.catalog.Assembled)
    (hop : op ∈ e.catalog.operators) (hname : name ∈ op.names) :
    e.Means name (.ok (.operator op)) :=
  .operator (h.read_name hop hname) (h.find?_eq_some hop hname)

end ReversePolish
