import ReversePolish.Proofs.Chain
import ReversePolish.Proofs.Catalog.Assembled
import ReversePolish.Proofs.Catalog.Standard
import ReversePolish.Proofs.Literal.Style
import ReversePolish.Proofs.Literal.Words
import ReversePolish.Proofs.Session.Derived
import ReversePolish.Proofs.Session.Names
import ReversePolish.Proofs.Session.Sequence

/-! # The input of an item as a program

The leaves of an item's input are the words of a line that computes the item, since an application
is written behind its operands. -/

namespace ReversePolish

open Outcome

/-! ## Values as words -/

/-- Whether the text of a value reads as the same value again. -/
def Fragment.ReadsBack : Fragment → Prop
  | .text _ => True
  | .value v style => (Literal.read (v.format style)).map (·.map Literal.value) = .ok (some v)

/-- Whether the values among the leaves read as the same values again. -/
def Chain.ReadsBack (c : Chain) : Prop := ∀ f ∈ c.fragments, f.ReadsBack

namespace Chain

theorem readsBack_literal {v : Value} {style : Style} (h : (literal v style).ReadsBack) :
    ∃ l, Literal.read (v.format style) = .ok (some l) ∧ l.value = v := by
  have hv : Fragment.ReadsBack (.value v style) := h _ (by simp [fragments_literal])
  obtain ⟨l?, hread, hvalue⟩ := map_eq_ok.mp hv
  obtain ⟨l, rfl, hl⟩ := Option.map_eq_some_iff.mp hvalue
  exact ⟨l, hread, hl⟩

theorem readsBack_operand {operands : List Chain} {name : String}
    (h : (application operands name).ReadsBack) : ∀ c ∈ operands, c.ReadsBack := by
  intro c hc f hf
  refine h f ?_
  rw [fragments_application]
  exact List.mem_append_left _ (List.mem_flatMap.mpr ⟨c, hc, hf⟩)

end Chain

namespace Evaluator

variable {e : Evaluator}

/-! ## What tokens push -/

/-- Whether the tokens push exactly these items on any stack without a limit. -/
def Pushes (e : Evaluator) (tokens : List String) (items : List Item) : Prop :=
  ∀ s : Stack, s.maxDepth = none → ∃ d, e.run s tokens = .ok d ∧ d.stack.maxDepth = none ∧
    d.stack.items = s.items ++ items

theorem pushes_nil : e.Pushes [] [] := fun s hs => ⟨{ stack := s }, rfl, hs, by simp⟩

theorem Pushes.append {tokens more : List String} {items others : List Item}
    (h : e.Pushes tokens items) (hmore : e.Pushes more others) :
    e.Pushes (tokens ++ more) (items ++ others) := by
  intro s hs
  obtain ⟨d, hd, hdepth, hitems⟩ := h s hs
  obtain ⟨d', hd', hdepth', hitems'⟩ := hmore d.stack hdepth
  refine ⟨d.andThen d', ?_, hdepth', ?_⟩
  · rw [run_append, hd]
    simp [bind, Except.bind, hd', Except.map]
  · simp [Draft.andThen, hitems', hitems]

theorem pushes_flatMap {items : List Item}
    (h : ∀ item ∈ items, e.Pushes item.input.rendered [item]) :
    e.Pushes (items.flatMap (·.input.rendered)) items := by
  induction items with
  | nil => exact pushes_nil
  | cons item items ih =>
      obtain ⟨hitem, hitems⟩ := List.forall_mem_cons.mp h
      exact hitem.append (ih hitems)

theorem run_singleton {s : Stack} {token : String} {d : Draft}
    (h : e.step { stack := s } token = .ok d) : e.run s [token] = .ok d := by
  simp [run, h, bind, Except.bind, pure, Except.pure]

theorem pushes_literal {token : String} {l : Literal} (h : Literal.read token = .ok (some l)) :
    e.Pushes [token] [e.literalItem l] := by
  intro s hs
  let above := s.update (s.items ++ [e.literalItem l])
  have hstep : e.step { stack := s } token =
      .ok (({ stack := s } : Draft).change (above, [.add (e.literalItem l)])) := by
    rw [step, (Means.literal h).meaning_eq]
    simp [bind, Except.bind, perform, Stack.push_of_unbounded hs, above]
  exact ⟨_, run_singleton hstep, hs, rfl⟩

/-- An operator finds its operands on top, where the tokens before it have left them. -/
theorem Pushes.result {tokens : List String} {operands : List Item} {op : Operator}
    {result : Value} (h : e.Pushes tokens operands) (hread : Literal.read op.name = .ok none)
    (hfind : e.catalog.find? op.name = some op) (harity : operands.length = op.arity)
    (happly : op.apply e.limits (operands.map Item.result) = .ok result) :
    e.Pushes (tokens ++ [op.name]) [Stack.resultItem op operands result] := by
  intro s hs
  obtain ⟨d, hd, hdepth, hitems⟩ := h s hs
  let next := d.stack.update (s.items ++ [Stack.resultItem op operands result])
  let changes := List.replicate operands.length .remove ++
    [Change.add (Stack.resultItem op operands result)]
  have hoperate : d.stack.operate e.limits op = .ok (next, changes) := by
    rw [Stack.operate_eq hitems harity, happly]
    change d.stack.replaceRange _ _ _ = _
    rw [Stack.replaceRange_top hitems, Stack.checkDepth_of_unbounded hdepth]
    rfl
  have hstep : e.step { stack := d.stack } op.name =
      .ok (({ stack := d.stack } : Draft).change (next, changes)) := by
    rw [step, (Means.operator hread hfind).meaning_eq]
    simp [bind, Except.bind, perform, hoperate, Except.map]
  refine ⟨d.andThen (({ stack := d.stack } : Draft).change (next, changes)), ?_, hdepth, rfl⟩
  rw [run_append, hd]
  simp [bind, Except.bind, run_singleton hstep, Except.map]

/-! ## Derived items -/

theorem Derives.of_claims {item : Item} (h : e.Derives item) (claims : String → Bool) :
    ({ e with claims } : Evaluator).Derives item := by
  induction h with
  | literal hread => exact .literal hread
  | result hop harity _ happly ih => exact .result hop harity ih happly

theorem Derives.words (hcatalog : e.catalog.Assembled) {item : Item} (h : e.Derives item)
    (hreads : item.input.ReadsBack) :
    ∀ text ∈ item.input.rendered, Token.words text = .ok [text] := by
  induction h with
  | literal hread =>
      obtain ⟨again, hagain, -⟩ := Chain.readsBack_literal hreads
      simpa [literalItem, Chain.rendered_literal] using Literal.words_of_read hagain
  | @result op operands result hop _ _ _ ih =>
      have hname : Token.words op.name = .ok [op.name] :=
        hcatalog.words_name hop List.mem_cons_self
      have hoperands := Chain.readsBack_operand hreads
      rw [Stack.resultItem, Chain.rendered_application]
      refine List.forall_mem_append.mpr ⟨fun text htext => ?_, by simpa using hname⟩
      obtain ⟨input, hinput, htext⟩ := List.mem_flatMap.mp htext
      obtain ⟨item, hitem, rfl⟩ := List.mem_map.mp hinput
      exact ih item hitem (hoperands _ hinput) text htext

theorem Derives.pushes (hcatalog : e.catalog.Assembled) (hstyle : e.style.radix = .decimal)
    {item : Item} (h : e.Derives item) (hreads : item.input.ReadsBack) :
    e.Pushes item.input.rendered [item] := by
  induction h with
  | @literal token l hread =>
      obtain ⟨again, hagain, hvalue⟩ := Chain.readsBack_literal hreads
      -- Reading back gives the value by assumption, but its style only because the radix shows.
      have hradix := Literal.style_of_read_format hstyle hread hagain hvalue
      have hitem : e.literalItem again = e.literalItem l := by
        rw [literalItem, literalItem, hradix, hvalue]
      rw [literalItem, Chain.rendered_literal, ← literalItem, ← hitem]
      exact pushes_literal hagain
  | @result op operands result hop harity _ happly ih =>
      have hread : Literal.read op.name = .ok none := hcatalog.read_name hop List.mem_cons_self
      have hoperands := Chain.readsBack_operand hreads
      rw [Stack.resultItem, Chain.rendered_application, List.flatMap_map]
      refine Pushes.result (pushes_flatMap fun item hitem => ?_) hread (hcatalog.find?_name hop)
        harity happly
      exact ih item hitem (hoperands _ (List.mem_map_of_mem hitem))

end Evaluator

/-! ## Sessions -/

namespace Session

/-- Every item of a session is what its own input computes: the rendered leaves of the input, if
its values read back, are a line that leaves just that item on an empty stack without a limit. -/
theorem input_computes_item {catalog : Catalog} (hcatalog : catalog.Assembled)
    (settings : Settings) (claims others : String → Bool) (lines : List String) {item : Item}
    (hitem : item ∈ ((start catalog settings claims).submitAll lines).1.stack.items)
    (hreads : item.input.ReadsBack) :
    let fresh := start catalog { settings with maxDepth := none } others
    let submission := fresh.submit (" ".intercalate item.input.rendered)
    submission.outcome = .ok () ∧ submission.session.stack.items = [item] := by
  intro fresh submission
  have hderives : fresh.evaluator.Derives item :=
    ((derives_submitAll catalog settings claims lines).2.present item hitem).of_claims others
  have hline := Token.words_intercalate (hderives.words hcatalog hreads)
  obtain ⟨d, hrun, -, hitems⟩ := hderives.pushes hcatalog rfl hreads fresh.stack rfl
  have hsubmission : submission = ⟨(fresh.commit d).1, (fresh.commit d).2, .ok ()⟩ :=
    submit_of_run hline hrun
  rw [hsubmission]
  refine ⟨rfl, ?_⟩
  rw [stack_commit (Evaluator.follows_run hrun), hitems]
  rfl

/-- An alias and a radix: the input of the sum has the name of the operator and the integer as it
was entered. -/
theorem input_computes_sum :
    let catalog := Catalog.standard.toOption.getD .empty
    let s := ((start catalog {} fun _ => false).submitAll ["0x10 3 +"]).1
    let sixteen : Item := ⟨Chain.literal (.int 16) { radix := .hexadecimal }, .int 16⟩
    let three : Item := ⟨Chain.literal (.int 3) {}, .int 3⟩
    let sum : Item := ⟨Chain.application [sixteen.input, three.input] "add", .int 19⟩
    let submission := (start catalog { maxDepth := none } fun _ => true).submit "0x10 3 add"
    s.stack.items = [sum] ∧ submission.outcome = .ok () ∧
      submission.session.stack.items = [sum] := by
  intro catalog s sixteen three sum
  have hcatalog : catalog.Assembled :=
    Catalog.assembled_of_ofLibraries (fun _ h => h) Catalog.standard_eq
  have hline : Token.words "0x10 3 +" = .ok ["0x10", "3", "+"] := by decide +kernel
  have hrun : (start catalog {} fun _ => false).evaluator.run (Stack.empty (some 1024))
      ["0x10", "3", "+"] = .ok
        { stack := ⟨⟨[sum], 3⟩, some 1024⟩
          changes := [.add sixteen, .add three, .remove, .remove, .add sum] } := rfl
  have hitems : s.stack.items = [sum] := by
    simp only [s, submitAll, submit_of_run hline hrun]
    rfl
  have hreads : sum.input.ReadsBack := by
    simp only [Chain.ReadsBack, sum, Chain.fragments_application]
    simp only [sixteen, three, List.flatMap_cons, Chain.fragments_literal, List.forall_mem_append,
      List.forall_mem_singleton]
    exact ⟨⟨rfl, rfl, List.forall_mem_nil _⟩, trivial⟩
  have hrendered : sum.input.rendered = ["0x10", "3", "add"] := by
    simp only [sum, sixteen, three, Chain.rendered_application, List.flatMap_cons,
      Chain.rendered_literal]
    rfl
  have hitem : sum ∈ s.stack.items := by
    rw [hitems]
    exact List.mem_singleton.mpr rfl
  have hresult := input_computes_item hcatalog {} (fun _ => false) (fun _ => true) ["0x10 3 +"]
    hitem hreads
  rw [hrendered] at hresult
  exact ⟨hitems, hresult⟩

end Session

end ReversePolish
