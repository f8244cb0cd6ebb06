import ReversePolish.Operator.Arithmetic
import ReversePolish.Proofs.Catalog.Applicable
import ReversePolish.Proofs.Catalog.Registration
import ReversePolish.Proofs.Operator.Accepted

/-! # The order of registration

Operators that can be registered can be registered in any order, and however that is done, the
catalogs give the same answers. -/

namespace ReversePolish

variable {op : Operator} {kinds : List Kind}

/-! ## The topmost kinds -/

/-- One of the signatures takes the topmost kinds. -/
def Operator.TakesTop (op : Operator) (kinds : List Kind) : Prop :=
  ∃ sig ∈ op.signatures, ∃ below top, kinds = below ++ top ∧ sig.Takes top

/-- Since all signatures have the length of the first, each of them is tried on as many kinds as it
has places. -/
theorem Operator.HasArity.applicableTo_iff (h : op.HasArity) :
    op.applicableTo kinds ↔ op.TakesTop kinds := by
  have hlength : ∀ sig ∈ op.signatures, sig.length = op.arity := by
    have hwell := Operator.wellFormed_iff.mpr h
    simp only [wellFormed, Bool.and_eq_true, List.all_eq_true, decide_eq_true_eq] at hwell
    exact hwell.2
  simp only [applicableTo, accepts, Bool.and_eq_true, decide_eq_true_eq, List.any_eq_true,
    Signature.accepts_iff_takes, TakesTop]
  constructor
  · rintro ⟨hle, sig, hsig, htop⟩
    exact ⟨sig, hsig, _, _, (List.take_append_drop _ kinds).symm, htop⟩
  · rintro ⟨sig, hsig, below, top, rfl, htop⟩
    have harity : top.length = op.arity := by rw [← hlength sig hsig, htop.length_eq]
    refine ⟨by simp [harity], sig, hsig, ?_⟩
    simpa [harity] using htop

namespace Catalog

variable {c c' : Catalog} {ops ops' : List Operator}

/-! ## Operators that can be registered -/

namespace Consistent

theorem exists_register_iff (h : c.Consistent) :
    (∃ next, c.register op = .ok next) ↔ op.HasArity ∧ (c.names ++ op.names).Nodup := by
  simp only [register_eq_ok, h.firstTaken?_index, firstTaken?_eq_none, exists_and_left,
    exists_eq', and_true, List.nodup_append', h.names_nodup, true_and]
  refine and_congr_right fun _ => and_congr_right fun _ => ?_
  exact ⟨fun hnew name hname hop => hnew name hop hname,
    fun hnew name hop hname => hnew hname hop⟩

theorem exists_registerAll_iff (h : c.Consistent) :
    (∃ next, c.registerAll ops = (next, .ok ())) ↔
      (∀ op ∈ ops, op.HasArity) ∧ (c.names ++ ops.flatMap Operator.names).Nodup := by
  induction ops generalizing c with
  | nil => simp [h.names_nodup]
  | cons op ops ih =>
      rw [List.forall_mem_cons, List.flatMap_cons, ← List.append_assoc, registerAll_cons]
      cases hop : c.register op with
      | error err =>
          have hrefused : ¬ (op.HasArity ∧ (c.names ++ op.names).Nodup) := by
            simp [← h.exists_register_iff, hop]
          simp only [Prod.mk.injEq, reduceCtorEq, and_false, exists_false, false_iff]
          rintro ⟨⟨harity, -⟩, hnodup⟩
          exact hrefused ⟨harity, hnodup.of_append_left⟩
      | ok next =>
          have harity : op.HasArity := (h.exists_register_iff.mp ⟨next, hop⟩).1
          have hnames : next.names = c.names ++ op.names := by
            obtain ⟨-, -, rfl⟩ := register_eq_ok.mp hop
            simp [names]
          rw [ih (h.register hop), hnames]
          simp [harity]

/-! ## Answers of catalogs with the same operators -/

theorem find?_congr (h : c.Consistent) (h' : c'.Consistent)
    (hperm : c.operators.Perm c'.operators) (name : String) : c.find? name = c'.find? name := by
  refine Option.ext fun op => ?_
  rw [h.find?_iff, h'.find?_iff, hperm.mem_iff]

/-- The entries are sorted by names, of which no two operators share one, so that there is one way
only to sort them. -/
theorem applicable_congr (h : c.Consistent) (hperm : c.operators.Perm c'.operators)
    (kinds : List Kind) (start : String) :
    c.applicable kinds start = c'.applicable kinds start := by
  refine List.Perm.eq_of_pairwise ?_
    (List.pairwise_map.mp (c.pairwise_map_fst_applicable kinds start))
    (List.pairwise_map.mp (c'.pairwise_map_fst_applicable kinds start)) ?_
  · intro (name, op) (name', op') hmem hmem' hle hge
    obtain rfl : name = name' := Text.shorterFirst_antisymm hle hge
    obtain ⟨hop, -, hname, -⟩ := (c.mem_applicable kinds start).mp hmem
    obtain ⟨hop', -, hname', -⟩ := (c'.mem_applicable kinds start).mp hmem'
    have hfind : c.find? name = some op := h.find?_iff.mpr ⟨hop, hname⟩
    have hfind' : c.find? name = some op' := h.find?_iff.mpr ⟨hperm.mem_iff.mpr hop', hname'⟩
    rw [hfind] at hfind'
    rw [Option.some.inj hfind']
  · refine (List.mergeSort_perm _ _).trans (.trans ?_ (List.mergeSort_perm _ _).symm)
    exact (hperm.filter _).flatMap_right _

end Consistent

/-! ## The contract -/

/-- The answers of two catalogs are the same. -/
structure Agrees (c c' : Catalog) : Prop where
  find? (name : String) : c.find? name = c'.find? name
  applicable (kinds : List Kind) (start : String) :
    c.applicable kinds start = c'.applicable kinds start

/-- For any kinds of a stack, the catalog lists every name with the given start of those of the
operators that take what is on top, once, in increasing order. -/
structure Applies (c : Catalog) (ops : List Operator) (kinds : List Kind) (start : String) :
    Prop where
  nodup : ((c.applicable kinds start).map Prod.fst).Nodup
  increasing : ((c.applicable kinds start).map Prod.fst).Pairwise fun a b =>
    a.utf8ByteSize < b.utf8ByteSize ∨ a.utf8ByteSize = b.utf8ByteSize ∧ a < b
  mem_iff (name : String) (op : Operator) : (name, op) ∈ c.applicable kinds start ↔
    op ∈ ops ∧ name ∈ op.names ∧ start.toList <+: name.toList ∧ op.TakesTop kinds

theorem Consistent.applies (h : c.Consistent) (kinds : List Kind) (start : String) :
    c.Applies c.operators kinds start where
  nodup := c.nodup_map_fst_applicable kinds start h.names_nodup
  increasing :=
    ((c.pairwise_map_fst_applicable kinds start).and
      (c.nodup_map_fst_applicable kinds start h.names_nodup)).imp
        fun ⟨hle, hne⟩ => Text.strict_of_shorterFirst hle hne
  mem_iff name op := by
    rw [mem_applicable, String.startsWith_string_iff]
    constructor
    · rintro ⟨hop, happly, hname, hstart⟩
      exact ⟨hop, hname, hstart, (h.hasArity op hop).applicableTo_iff.mp happly⟩
    · rintro ⟨hop, hname, hstart, htop⟩
      exact ⟨hop, (h.hasArity op hop).applicableTo_iff.mpr htop, hname, hstart⟩

/-- If operators can be registered in one order, they can be registered in every other, and the
answers are the same: the operator of each name, and the names that apply to a stack. -/
theorem answers_ignore_registration_order (hperm : ops.Perm ops')
    (h : Catalog.empty.registerAll ops = (c, .ok ())) :
    ∃ c', Catalog.empty.registerAll ops' = (c', .ok ()) ∧ c.Agrees c' ∧
      ∀ kinds start, c.Applies ops kinds start := by
  obtain ⟨harity, hnodup⟩ := Consistent.empty.exists_registerAll_iff.mp ⟨c, h⟩
  have hregisters : (∀ op ∈ ops', op.HasArity) ∧
      (Catalog.empty.names ++ ops'.flatMap Operator.names).Nodup := by
    refine ⟨fun op hop => harity op (hperm.mem_iff.mpr hop), ?_⟩
    exact ((hperm.flatMap_right _).append_left _).nodup_iff.mp hnodup
  obtain ⟨c', h'⟩ := Consistent.empty.exists_registerAll_iff.mpr hregisters
  have hc : c.Consistent := by simpa [h] using Consistent.empty.registerAll ops
  have hc' : c'.Consistent := by simpa [h'] using Consistent.empty.registerAll ops'
  have hops : c.operators = ops := (registerAll_eq_ok h).1
  have hops' : c'.operators = ops' := (registerAll_eq_ok h').1
  have hsame : c.operators.Perm c'.operators := by rw [hops, hops']; exact hperm
  refine ⟨c', h', ⟨hc.find?_congr hc' hsame, hc.applicable_congr hsame⟩, ?_⟩
  exact fun kinds start => hops ▸ hc.applies kinds start

/-- Arithmetic can be registered from its end. -/
theorem answers_ignore_registration_order_of_arithmetic :
    let ops := Arithmetic.operators
    ∃ c c', Catalog.empty.registerAll ops = (c, .ok ()) ∧
      Catalog.empty.registerAll ops.reverse = (c', .ok ()) ∧ c.Agrees c' := by
  intro ops
  have hall : Catalog.empty.registerAll ops = ((Catalog.empty.registerAll ops).1, .ok ()) := rfl
  obtain ⟨c', hc', hagrees, -⟩ :=
    answers_ignore_registration_order ops.reverse_perm.symm hall
  exact ⟨_, c', hall, hc', hagrees⟩

end Catalog

end ReversePolish
