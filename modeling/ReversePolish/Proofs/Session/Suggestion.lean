import ReversePolish.Proofs.Catalog.Applicable
import ReversePolish.Proofs.Catalog.Persistent
import ReversePolish.Proofs.Catalog.Standard
import ReversePolish.Proofs.Session.Names
import ReversePolish.Proofs.Session.Sequence
import ReversePolish.Proofs.Stack.Operations
import ReversePolish.Session.Suggestion

/-! # Suggestions keep their promise

Behind words that can be evaluated, the suggestions are the names of just those operators that
accept what these words would leave on top. Whoever follows one meets no error but those of the
operator itself and of a stack that is full. -/

namespace ReversePolish

open Outcome

/-! ## The last word -/

/-- A text up to its last blank, and the word behind it. -/
structure LastWord (before word : String) : Prop where
  ends_blank : ∀ c ∈ before.toList.getLast?, Text.isBlank c
  no_blank : ∀ c ∈ word.toList, ¬ Text.isBlank c

namespace Session

theorem splitLastWord_eq_iff {text before word : List Char} :
    splitLastWord text = (before, word) ↔
      text = before ++ word ∧ (∀ c ∈ word, ¬ Text.isBlank c) ∧
        ∀ c ∈ before.getLast?, Text.isBlank c := by
  have hruns : _ ↔ text.reverse = word.reverse ++ before.reverse ∧ _ :=
    Text.takeWhile_dropWhile_iff (!Text.isBlank ·) text.reverse
  rw [← List.reverse_append, List.reverse_inj] at hruns
  rw [splitLastWord, Prod.mk.injEq, List.reverse_eq_iff, List.reverse_eq_iff, and_comm, hruns]
  simp

theorem splitLastWord_append {before word : String} (h : LastWord before word) :
    splitLastWord (before ++ word).toList = (before.toList, word.toList) :=
  splitLastWord_eq_iff.mpr ⟨String.toList_append, h.no_blank, h.ends_blank⟩

theorem exists_lastWord (typed : String) :
    ∃ before word, typed = before ++ word ∧ LastWord before word := by
  obtain ⟨before, word, hlast⟩ : ∃ before word, splitLastWord typed.toList = (before, word) :=
    ⟨_, _, rfl⟩
  obtain ⟨htyped, hword, hbefore⟩ := splitLastWord_eq_iff.mp hlast
  refine ⟨String.ofList before, String.ofList word, ?_, by simpa using hbefore,
    by simpa using hword⟩
  rw [← String.ofList_append, ← htyped, String.ofList_toList]

theorem suggest_append (s : Session) {before word : String} (h : LastWord before word) :
    s.suggest (before ++ word) =
      (s.completions before.toList word).map (before ++ ·) := by
  simp only [suggest, splitLastWord_append h, String.ofList_toList]

end Session

/-! ## Completions -/

theorem Command.complete_startsWith {start name : String} (h : name ∈ complete start) :
    name.startsWith start := by
  unfold complete at h
  split at h
  · exact (List.mem_filter.mp (List.mem_mergeSort.mp h)).2
  · cases h

theorem Command.complete_nodup (start : String) : (complete start).Nodup := by
  have hall : ((all.flatMap names).map token).Nodup := by decide +kernel
  unfold complete
  split
  · exact (List.mergeSort_perm _ _).nodup_iff.mpr (hall.filter _)
  · exact List.nodup_nil

theorem MeasureFamily.complete_startsWith {word name : String} (hword : word.startsWith "_")
    (h : name ∈ complete (word.drop 1).toString) : name.startsWith word := by
  obtain ⟨m, hm, rfl⟩ := List.mem_map.mp h
  have hname : (word.drop 1).copy.toList <+: m.name.toList :=
    String.startsWith_string_iff.mp (List.mem_filter.mp hm).2
  obtain ⟨rest, hrest⟩ := String.startsWith_string_iff.mp hword
  have husage : m.usage.toList = '_' :: m.name.toList := String.toList_append
  have hcons : word.toList = '_' :: rest := hrest.symm
  rw [String.toList_copy_drop, hcons] at hname
  rw [String.startsWith_string_iff, husage, hcons]
  exact (List.prefix_cons_inj '_').mpr hname

theorem MeasureFamily.complete_nodup (start : String) : (complete start).Nodup := by
  have hall : ((all.flatMap measures).map Measure.usage).Nodup := by decide +kernel
  exact hall.sublist (List.filter_sublist.map _)

namespace Session

variable {s : Session} {before word : String}

theorem completions_startsWith {name : String}
    (h : name ∈ s.completions before.toList word) : name.startsWith word := by
  unfold completions at h
  split at h
  · exact Command.complete_startsWith h
  split at h
  · next hword => exact MeasureFamily.complete_startsWith hword h
  · obtain ⟨op, -, -, hstart, -⟩ := (Catalog.mem_map_fst_applicable _ _ _).mp h
    exact hstart

theorem completions_nodup (hcatalog : s.evaluator.catalog.Assembled) (before : List Char)
    (word : String) : (s.completions before word).Nodup := by
  unfold completions
  split
  · exact Command.complete_nodup word
  split
  · exact MeasureFamily.complete_nodup _
  · exact Catalog.nodup_map_fst_applicable _ _ _ hcatalog.names_nodup

theorem suggest_startsWith {typed line : String} (h : line ∈ s.suggest typed) :
    line.startsWith typed := by
  obtain ⟨before, word, rfl, hlast⟩ := exists_lastWord typed
  rw [suggest_append s hlast] at h
  obtain ⟨name, hname, rfl⟩ := List.mem_map.mp h
  have hstart := String.startsWith_string_iff.mp (completions_startsWith hname)
  rw [String.startsWith_string_iff, String.toList_append, String.toList_append]
  exact (List.prefix_append_right_inj _).mpr hstart

theorem suggest_nodup (hcatalog : s.evaluator.catalog.Assembled) (typed : String) :
    (s.suggest typed).Nodup := by
  obtain ⟨before, word, rfl, hlast⟩ := exists_lastWord typed
  rw [suggest_append s hlast]
  refine (completions_nodup hcatalog _ _).map fun a b h => ?_
  exact (String.append_right_inj before).mp h

end Session

/-! ## What the words before leave on top -/

namespace Stack

/-- Whether the operator accepts what is on top. -/
structure Offers (s : Stack) (op : Operator) : Prop where
  arity_le : op.arity ≤ s.size
  accepts : op.accepts ((s.operands op).map Value.kind)

variable {s : Stack} {op : Operator}

theorem offers_iff : s.Offers op ↔ op.applicableTo s.kinds := by
  have hlength : s.kinds.length = s.size := List.length_map _
  have hkinds : s.kinds.drop (s.size - op.arity) = (s.operands op).map Value.kind := by
    simp only [kinds, operands, List.map_drop, List.map_map]
    rfl
  rw [Operator.applicableTo, hlength, hkinds, Bool.and_eq_true, decide_eq_true_eq]
  exact ⟨fun h => ⟨h.arity_le, h.accepts⟩, fun h => ⟨h.1, h.2⟩⟩

/-- Where an operator is accepted, it is left to its own evaluation, and then to the depth. -/
theorem Offers.operate (h : s.Offers op) (limits : Limits) :
    ((s.operate limits op).map fun _ => ()) =
      op.evaluate limits (s.operands op) >>= fun _ => s.checkDepth (s.size - op.arity + 1) := by
  obtain ⟨below, operands, hitems, harity⟩ := exists_operands h.arity_le
  have hsize := size_eq hitems
  have hbelow : s.size - op.arity = below.length := by omega
  have hoperands : s.operands op = operands.map Item.result := by
    rw [Stack.operands, hbelow, hitems, List.drop_left]
  have haccepts := h.accepts
  rw [hoperands] at haccepts ⊢
  rw [operate_eq hitems harity, Operator.apply, if_pos haccepts, hbelow]
  cases op.evaluate limits (operands.map Item.result) with
  | error err => rfl
  | ok result =>
      change (s.replaceRange _ _ _).map _ = s.checkDepth (below.length + 1)
      rw [replaceRange_top hitems]
      cases s.checkDepth (below.length + 1) with
      | error err => rfl
      | ok _ => rfl

end Stack

theorem Token.words_of_blank {line : String} (h : ∀ c ∈ line.toList, Text.isBlank c) :
    words line = .ok [] := by
  rw [words_eq_ok]
  generalize line.toList = cs at h
  induction cs with
  | nil => exact .nil
  | cons c cs ih =>
      obtain ⟨hc, hcs⟩ := List.forall_mem_cons.mp h
      exact .blank hc (ih hcs)

/-! ## A name behind other words -/

namespace Evaluator

variable {e : Evaluator} {op : Operator} {name : String}

theorem travel?_append_name (hcatalog : e.catalog.Assembled) (hop : op ∈ e.catalog.operators)
    (hname : name ∈ op.names) (tokens : List String) : e.travel? (tokens ++ [name]) = none := by
  by_contra hne
  obtain ⟨t, ht⟩ := Option.ne_none_iff_exists'.mp hne
  obtain ⟨token, htokens, hmeans⟩ := travel?_eq_some.mp ht
  have htoken : name ∈ [token] := htokens ▸ by simp
  rw [← List.mem_singleton.mp htoken] at hmeans
  have hsame := hmeans.meaning_eq.symm.trans (means_name hcatalog hop hname).meaning_eq
  cases hsame

theorem run_append_name (hcatalog : e.catalog.Assembled) (hop : op ∈ e.catalog.operators)
    (hname : name ∈ op.names) {s : Stack} {tokens : List String} {d : Draft}
    (hrun : e.run s tokens = .ok d) :
    e.run s (tokens ++ [name]) = (d.stack.operate e.limits op).map d.change := by
  have hstep : e.step d name = (d.stack.operate e.limits op).map d.change := by
    rw [step, (means_name hcatalog hop hname).meaning_eq]
    rfl
  rw [run, List.foldlM_append]
  change e.run s tokens >>= (fun d => e.step d name >>= pure) = _
  rw [hrun, ← hstep]
  exact bind_pure (e.step d name)

end Evaluator

/-! ## What can be evaluated -/

namespace Session

/-- Whether the words of a line can be evaluated. Steps through the history cannot. -/
def Evaluates (s : Session) (line : String) : Prop :=
  ∃ tokens d, Token.words line = .ok tokens ∧ s.evaluator.run s.stack tokens = .ok d

variable {s : Session} {before word name : String} {tokens : List String} {d : Draft}

theorem evaluates_of_blank (h : ∀ c ∈ before.toList, Text.isBlank c) : s.Evaluates before :=
  ⟨[], { stack := s.stack }, Token.words_of_blank h, rfl⟩

theorem previewKinds_of_run (hline : Token.words before = .ok tokens)
    (hrun : s.evaluator.run s.stack tokens = .ok d) :
    s.previewKinds before.toList = d.stack.kinds := by
  obtain ⟨scanned, hscan, rfl⟩ := map_eq_ok.mp hline
  simp only [previewKinds, String.ofList_toList, hscan, bind, Except.bind, hrun]

theorem stack_submit_of_run (hline : Token.words before = .ok tokens)
    (hrun : s.evaluator.run s.stack tokens = .ok d) :
    (s.submit before).session.stack = d.stack := by
  rw [submit_of_run hline hrun]
  exact stack_commit (Evaluator.follows_run hrun)

theorem outcome_of_words {line : String} (hline : Token.words line = .ok tokens)
    (htravel : s.evaluator.travel? tokens = none) :
    (s.submit line).outcome = (s.evaluator.run s.stack tokens).map fun _ => () := by
  have hevaluate : s.evaluate line = (s.evaluator.run s.stack tokens).map s.commit := by
    rw [evaluate_eq, hline]
    simp only [bind, Except.bind, htravel]
  rw [submit_eq, hevaluate]
  cases s.evaluator.run s.stack tokens with
  | error err => rfl
  | ok d => rfl

/-- What can be evaluated is what can be submitted, but for steps through the history. -/
theorem evaluates_iff {line : String} :
    s.Evaluates line ↔ ∃ tokens, Token.words line = .ok tokens ∧
      s.evaluator.travel? tokens = none ∧ (s.submit line).outcome = .ok () := by
  constructor
  · rintro ⟨tokens, d, hline, hrun⟩
    refine ⟨tokens, hline, Evaluator.travel?_eq_none_of_run hrun, ?_⟩
    rw [submit_of_run hline hrun]
  · rintro ⟨tokens, hline, htravel, houtcome⟩
    rw [outcome_of_words hline htravel] at houtcome
    obtain ⟨d, hrun, -⟩ := map_eq_ok.mp houtcome
    exact ⟨tokens, d, hline, hrun⟩

/-! ## Following a suggestion -/

/-- Behind words that can be evaluated, the name of an operator whose operands are on top fails
where the operator is not defined for them, or for want of room. -/
theorem outcome_append_name (hcatalog : s.evaluator.catalog.Assembled)
    (hlast : ∀ c ∈ before.toList.getLast?, Text.isBlank c)
    (hline : Token.words before = .ok tokens) (hrun : s.evaluator.run s.stack tokens = .ok d)
    {op : Operator} (hop : op ∈ s.evaluator.catalog.operators) (hname : name ∈ op.names)
    (hoffers : d.stack.Offers op) :
    (s.submit (before ++ name)).outcome =
      op.evaluate s.evaluator.limits (d.stack.operands op) >>= fun _ =>
        d.stack.checkDepth (d.stack.size - op.arity + 1) := by
  have hline' := Token.words_join hline (hcatalog.words_name hop hname) hlast
  have htravel := Evaluator.travel?_append_name hcatalog hop hname tokens
  rw [outcome_of_words hline' htravel, Evaluator.run_append_name hcatalog hop hname hrun,
    ← hoffers.operate]
  cases d.stack.operate s.evaluator.limits op with
  | error err => rfl
  | ok moved => rfl

/-- What the suggestions for a text are, by the stack that its words before the last would leave:
the names of the operators that accept what is on top, the short ones first. They can be submitted,
and fail where the operator is not defined for its operands or where there is no room. -/
structure Completes (s : Session) (before word : String) (names : List String) : Prop where
  suggested : s.suggest (before ++ word) = names.map (before ++ ·)
  sorted : names.Pairwise fun a b =>
    a.utf8ByteSize < b.utf8ByteSize ∨ a.utf8ByteSize = b.utf8ByteSize ∧ a < b
  committed : (s.submit before).outcome = .ok ()
  mem_iff : ∀ name, name ∈ names ↔ ∃ op ∈ s.evaluator.catalog.operators,
    name ∈ op.names ∧ name.startsWith word ∧ (s.submit before).session.stack.Offers op
  submitted : ∀ name ∈ names, ∀ op ∈ s.evaluator.catalog.operators, name ∈ op.names →
    let stack := (s.submit before).session.stack
    (s.submit (before ++ name)).outcome =
      op.evaluate s.evaluator.limits (stack.operands op) >>= fun _ =>
        stack.checkDepth (stack.size - op.arity + 1)
  refused : ∀ name ∈ names, ∀ err, (s.submit (before ++ name)).outcome = .error err →
    err.kind ∉ [ErrorKind.parse, .unknownCommand, .stackUnderflow]

theorem completions_eq_applicable (hcommand : word.startsWith "\\" = false)
    (hunit : word.startsWith "_" = false) (before : List Char) :
    s.completions before word =
      (s.evaluator.catalog.applicable (s.previewKinds before) word).map Prod.fst := by
  simp [completions, hcommand, hunit]

theorem mem_completions (hcommand : word.startsWith "\\" = false)
    (hunit : word.startsWith "_" = false) (hline : Token.words before = .ok tokens)
    (hrun : s.evaluator.run s.stack tokens = .ok d) :
    name ∈ s.completions before.toList word ↔ ∃ op ∈ s.evaluator.catalog.operators,
      name ∈ op.names ∧ name.startsWith word ∧ d.stack.Offers op := by
  rw [completions_eq_applicable hcommand hunit, previewKinds_of_run hline hrun]
  simp only [Catalog.mem_map_fst_applicable, Stack.offers_iff]

theorem completions_sorted (hcatalog : s.evaluator.catalog.Assembled)
    (hcommand : word.startsWith "\\" = false) (hunit : word.startsWith "_" = false)
    (before : List Char) :
    (s.completions before word).Pairwise fun a b =>
      a.utf8ByteSize < b.utf8ByteSize ∨ a.utf8ByteSize = b.utf8ByteSize ∧ a < b := by
  have hnodup := completions_nodup hcatalog before word
  rw [completions_eq_applicable hcommand hunit] at hnodup ⊢
  have hsorted := s.evaluator.catalog.pairwise_map_fst_applicable (s.previewKinds before) word
  exact (hsorted.and hnodup).imp fun h => Text.strict_of_shorterFirst h.1 h.2

theorem completes_of_run (hcatalog : s.evaluator.catalog.Assembled)
    (hlast : LastWord before word) (hcommand : word.startsWith "\\" = false)
    (hunit : word.startsWith "_" = false) (hline : Token.words before = .ok tokens)
    (hrun : s.evaluator.run s.stack tokens = .ok d) :
    s.Completes before word (s.completions before.toList word) := by
  have hstack := stack_submit_of_run hline hrun
  have hmem {name : String} : name ∈ s.completions before.toList word ↔ _ :=
    mem_completions hcommand hunit hline hrun
  have houtcome {name : String} (hname : name ∈ s.completions before.toList word) {op : Operator}
      (hop : op ∈ s.evaluator.catalog.operators) (hnamed : name ∈ op.names) :
      (s.submit (before ++ name)).outcome =
        op.evaluate s.evaluator.limits (d.stack.operands op) >>= fun _ =>
          d.stack.checkDepth (d.stack.size - op.arity + 1) := by
    obtain ⟨other, hother, hnamed', -, hoffers⟩ := hmem.mp hname
    obtain rfl := hcatalog.eq_of_mem_names hop hother hnamed hnamed'
    exact outcome_append_name hcatalog hlast.ends_blank hline hrun hop hnamed hoffers
  constructor
  case suggested => exact suggest_append s hlast
  case sorted => exact completions_sorted hcatalog hcommand hunit before.toList
  case committed => rw [submit_of_run hline hrun]
  case mem_iff =>
    rw [hstack]
    exact fun name => hmem
  case submitted =>
    intro name hname op hop hnamed
    rw [hstack]
    exact houtcome hname hop hnamed
  case refused =>
    intro name hname err herror
    obtain ⟨op, hop, hnamed, -⟩ := hmem.mp hname
    rw [houtcome hname hop hnamed, bind_eq_error] at herror
    rcases herror with hundefined | ⟨result, -, hfull⟩
    · have hraises := hcatalog.evaluate_raises hop s.evaluator.limits (d.stack.operands op)
      have hkind := ErrorKind.not_mem_of_isOperational (hraises.of_eq_error hundefined)
      exact fun hwrong => hkind (List.mem_append_left [ErrorKind.stackOverflow] hwrong)
    · obtain ⟨limit, -, -, rfl⟩ := Stack.checkDepth_eq_error.mp hfull
      simp [Error.kind]

/-- After any lines, every suggestion begins with the text that was typed, and none stands twice.
For the last word of a text that asks for no command and no unit, behind words that are blank or can
be evaluated, the suggestions are those of the operators whose operands the words before would leave
on top. -/
theorem suggestions_are_applicable {catalog : Catalog} (hcatalog : catalog.Assembled)
    (settings : Settings) (claims : String → Bool) (lines : List String) :
    let s := ((start catalog settings claims).submitAll lines).1
    (∀ typed, (∀ line ∈ s.suggest typed, line.startsWith typed) ∧ (s.suggest typed).Nodup ∧
      ∃ before word, typed = before ++ word ∧ LastWord before word) ∧
      ∀ before word, LastWord before word → word.startsWith "\\" = false →
        word.startsWith "_" = false →
        (∀ c ∈ before.toList, Text.isBlank c) ∨ s.Evaluates before →
        ∃ names, s.Completes before word names := by
  intro s
  have hassembled : s.evaluator.catalog.Assembled := by
    rw [evaluator_submitAll]
    exact hcatalog
  refine ⟨fun typed => ⟨fun line => suggest_startsWith, suggest_nodup hassembled typed,
    exists_lastWord typed⟩, ?_⟩
  intro before word hlast hcommand hunit hbefore
  obtain ⟨tokens, d, hline, hrun⟩ := hbefore.elim evaluates_of_blank id
  exact ⟨_, completes_of_run hassembled hlast hcommand hunit hline hrun⟩

/-- A norm is suggested behind a wide blank, and although an integer is still on top. -/
theorem suggestions_are_applicable_behind_swap :
    let catalog := Catalog.standard.toOption.getD .empty
    let s := ((start catalog {} fun _ => false).submitAll ["[1, 2] 3"]).1
    let norm := LinearAlgebra.operators[8]
    catalog.Assembled ∧ s.Evaluates "\\swap\u3000" ∧ ¬ s.stack.Offers norm ∧
      ∃ names, s.Completes "\\swap\u3000" "no" names ∧ "norm" ∈ names := by
  intro catalog s norm
  have hcatalog : catalog.Assembled :=
    Catalog.assembled_of_ofLibraries (fun _ h => h) Catalog.standard_eq
  have hevaluates : s.Evaluates "\\swap\u3000" :=
    evaluates_iff.mpr ⟨["\\swap"], by decide +kernel, by decide +kernel, by decide +kernel⟩
  have hinteger : norm.accepts ((s.stack.operands norm).map Value.kind) = false := by
    decide +kernel
  have hlast : LastWord "\\swap\u3000" "no" := ⟨by simp [Text.isBlank], by simp [Text.isBlank]⟩
  have hnorm : norm ∈ s.evaluator.catalog.operators := by
    have hlibrary : Library.linearAlgebra ∈ Library.standard := by simp [Library.standard]
    have hnorm : norm ∈ Library.linearAlgebra.operators := List.getElem_mem _
    rw [evaluator_submitAll]
    exact List.mem_flatMap_of_mem (f := Library.operators) hlibrary hnorm
  have hoffers : (s.submit "\\swap\u3000").session.stack.Offers norm :=
    ⟨by decide +kernel, by decide +kernel⟩
  have hsession := (suggestions_are_applicable hcatalog {} (fun _ => false) ["[1, 2] 3"]).2
  obtain ⟨names, hnames⟩ := hsession "\\swap\u3000" "no" hlast (by decide +kernel)
    (by decide +kernel) (.inr hevaluates)
  refine ⟨hcatalog, hevaluates, fun h => ?_, names, hnames, (hnames.mem_iff _).mpr ?_⟩
  · have haccepts := h.accepts
    rw [hinteger] at haccepts
    cases haccepts
  · exact ⟨norm, hnorm, List.mem_cons_self, by decide +kernel, hoffers⟩

end Session

end ReversePolish
