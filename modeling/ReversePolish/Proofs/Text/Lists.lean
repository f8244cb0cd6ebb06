import Mathlib.Data.List.Forall2
import ReversePolish.Proofs.Text.Blank

/-! # Lists of parts in a text

A text lists parts if it consists of them and of what may stand in front of, between and behind
them. The fields of a text are the parts that runs of separators set apart. -/

namespace ReversePolish.Text

/-- What may stand in front of, between and behind the parts of a list. -/
structure Spacing where
  front : List Char → Prop
  between : List Char → Prop
  back : List Char → Prop

variable {α β : Type}

/-- How a list goes on behind one of its parts. -/
inductive GoesOn (sp : Spacing) (part : List Char → α → Prop) : List Char → List α → Prop where
  | nil {gap : List Char} (hgap : sp.back gap) : GoesOn sp part gap []
  | cons {gap text rest : List Char} {a : α} {as : List α} (hgap : sp.between gap)
      (hpart : part text a) (h : GoesOn sp part rest as) :
      GoesOn sp part (gap ++ (text ++ rest)) (a :: as)

/-- A list of one or more parts. -/
inductive Lists (sp : Spacing) (part : List Char → α → Prop) : List Char → List α → Prop where
  | cons {gap text rest : List Char} {a : α} {as : List α} (hgap : sp.front gap)
      (hpart : part text a) (h : GoesOn sp part rest as) :
      Lists sp part (gap ++ (text ++ rest)) (a :: as)

/-- Whether every text that may stand somewhere under the first rules may stand there under the
second. -/
structure Spacing.Within (sp sp' : Spacing) : Prop where
  front : ∀ gap, sp.front gap → sp'.front gap
  between : ∀ gap, sp.between gap → sp'.between gap
  back : ∀ gap, sp.back gap → sp'.back gap

theorem Spacing.Within.refl {sp : Spacing} : sp.Within sp :=
  ⟨fun _ h => h, fun _ h => h, fun _ h => h⟩

section

variable {sp sp' : Spacing} {part part' : List Char → α → Prop} {cs : List Char} {as : List α}

theorem GoesOn.mono (h : GoesOn sp part cs as) (hsp : sp.Within sp')
    (hpart : ∀ text, ∀ a ∈ as, part text a → part' text a) : GoesOn sp' part' cs as := by
  induction h with
  | nil hgap => exact .nil (hsp.back _ hgap)
  | cons hgap ha h ih =>
      refine .cons (hsp.between _ hgap) (hpart _ _ List.mem_cons_self ha) (ih ?_)
      exact fun text b hb => hpart text b (List.mem_cons_of_mem _ hb)

theorem Lists.mono (h : Lists sp part cs as) (hsp : sp.Within sp')
    (hpart : ∀ text, ∀ a ∈ as, part text a → part' text a) : Lists sp' part' cs as := by
  cases h with
  | cons hgap ha h =>
      refine .cons (hsp.front _ hgap) (hpart _ _ List.mem_cons_self ha) (h.mono hsp ?_)
      exact fun text b hb => hpart text b (List.mem_cons_of_mem _ hb)

/-- Parts that are read in two steps. -/
theorem goesOn_comp_iff {r : α → β → Prop} {bs : List β} :
    GoesOn sp (fun text b => ∃ a, part text a ∧ r a b) cs bs ↔
      ∃ as, GoesOn sp part cs as ∧ List.Forall₂ r as bs := by
  constructor
  · intro h
    induction h with
    | nil hgap => exact ⟨[], .nil hgap, .nil⟩
    | cons hgap hpart h ih =>
        obtain ⟨a, ha, hab⟩ := hpart
        obtain ⟨as, has, hr⟩ := ih
        exact ⟨a :: as, .cons hgap ha has, .cons hab hr⟩
  · rintro ⟨as, has, hr⟩
    induction has generalizing bs with
    | nil hgap =>
        cases hr
        exact .nil hgap
    | cons hgap ha h ih =>
        cases hr with
        | cons hab hr => exact .cons hgap ⟨_, ha, hab⟩ (ih hr)

end

/-! ## Fields -/

variable {p : Char → Bool} {cs gap rest word : List Char}

theorem fields_append_cons {c : Char} (hc : p c) (before after : List Char) :
    fields p (before ++ c :: after) = fields p before ++ fields p after := by
  simp [fields, List.splitOnP_append_cons before after hc]

theorem fields_of_forall (h : ∀ c ∈ gap, p c) : fields p gap = [] := by
  induction gap with
  | nil => rfl
  | cons c gap ih =>
      obtain ⟨hc, hgap⟩ := List.forall_mem_cons.mp h
      exact (fields_append_cons hc [] gap).trans (ih hgap)

theorem fields_gap_append (h : ∀ c ∈ gap, p c) : fields p (gap ++ rest) = fields p rest := by
  induction gap with
  | nil => rfl
  | cons c gap ih =>
      obtain ⟨hc, hgap⟩ := List.forall_mem_cons.mp h
      exact (fields_append_cons hc [] (gap ++ rest)).trans (ih hgap)

theorem fields_append_gap (h : ∀ c ∈ gap, p c) : fields p (cs ++ gap) = fields p cs := by
  cases gap with
  | nil => rw [List.append_nil]
  | cons c gap =>
      obtain ⟨hc, hgap⟩ := List.forall_mem_cons.mp h
      rw [fields_append_cons hc, fields_of_forall hgap, List.append_nil]

theorem fields_word_append (hne : word ≠ []) (hword : ∀ c ∈ word, p c = false)
    (hrest : ∀ c ∈ rest.head?, p c) : fields p (word ++ rest) = word :: fields p rest := by
  have hsingle : fields p word = [word] := by
    simp [fields, List.splitOnP_eq_singleton hword, hne]
  cases rest with
  | nil => rw [List.append_nil, hsingle]; rfl
  | cons c rest =>
      have hc : p c := hrest c rfl
      rw [fields_append_cons hc, hsingle]
      exact congrArg (word :: ·) (fields_append_cons hc [] rest).symm

/-- Where the first field stands in the text. -/
theorem exists_of_fields_eq_cons {words : List (List Char)} (h : fields p cs = word :: words) :
    ∃ gap rest, cs = gap ++ (word ++ rest) ∧ (∀ c ∈ gap, p c) ∧
      (word ≠ [] ∧ ∀ c ∈ word, p c = false) ∧ (∀ c ∈ rest.head?, p c) ∧ fields p rest = words := by
  obtain ⟨hcs, hgap, hstart⟩ := (takeWhile_dropWhile_iff p cs).mp ⟨rfl, rfl⟩
  generalize cs.takeWhile p = gap at hcs hgap
  generalize cs.dropWhile p = after at hcs hstart
  obtain ⟨hafter, hfirst, hrest⟩ := (takeWhile_dropWhile_iff (!p ·) after).mp ⟨rfl, rfl⟩
  generalize after.takeWhile (!p ·) = first at hafter hfirst
  generalize after.dropWhile (!p ·) = rest at hafter hrest
  subst hcs hafter
  simp only [Bool.not_eq_true', Bool.not_eq_false'] at hfirst hrest
  rw [fields_gap_append hgap] at h
  have hne : first ≠ [] := by
    rintro rfl
    cases rest with
    | nil => cases h
    | cons c rest => exact Bool.false_ne_true ((hstart c rfl).symm.trans (hrest c rfl))
  rw [fields_word_append hne hfirst hrest] at h
  obtain ⟨rfl, hwords⟩ := List.cons.inj h
  exact ⟨gap, rest, rfl, hgap, ⟨hne, hfirst⟩, hrest, hwords⟩

theorem fields_trim (hp : ∀ c, isBlank c → p c) (cs : List Char) :
    fields p (trim cs) = fields p cs := by
  obtain ⟨before, after, hcs, hbefore, hafter⟩ := exists_trim cs
  conv_rhs => rw [hcs]
  rw [fields_append_gap fun c hc => hp c (hafter c hc),
    fields_gap_append fun c hc => hp c (hbefore c hc)]

/-! ## Fields as parts of a list -/

/-- Runs of separators between the parts, which may also stand at both ends. -/
def Spacing.separated (p : Char → Bool) : Spacing where
  front gap := ∀ c ∈ gap, p c
  between gap := gap ≠ [] ∧ ∀ c ∈ gap, p c
  back gap := ∀ c ∈ gap, p c

variable {part : List Char → α → Prop} {as : List α}

theorem goesOn_separated_iff
    (hpart : ∀ text a, part text a → text ≠ [] ∧ ∀ c ∈ text, p c = false) :
    GoesOn (.separated p) part cs as ↔
      (∀ c ∈ cs.head?, p c) ∧ List.Forall₂ part (fields p cs) as := by
  constructor
  · intro h
    induction h with
    | nil hgap =>
        rw [fields_of_forall hgap]
        exact ⟨fun c hc => hgap c (List.mem_of_mem_head? hc), .nil⟩
    | @cons gap text rest a as hgap ha h ih =>
        obtain ⟨hrest, hfields⟩ := ih
        obtain ⟨hne, htext⟩ := hpart text a ha
        rw [fields_gap_append hgap.2, fields_word_append hne htext hrest]
        refine ⟨fun c hc => hgap.2 c ?_, .cons ha hfields⟩
        rw [List.head?_append_of_ne_nil gap hgap.1] at hc
        exact List.mem_of_mem_head? hc
  · rintro ⟨hhead, hfields⟩
    induction as generalizing cs with
    | nil =>
        have hnone : fields p cs = [] := List.forall₂_nil_right_iff.mp hfields
        refine .nil fun c hc => (mem_fields p hc).resolve_right ?_
        simp [hnone]
    | cons a as ih =>
        obtain ⟨word, words, ha, hwords, hcs⟩ := List.forall₂_cons_right_iff.mp hfields
        obtain ⟨gap, rest, rfl, hgap, ⟨hne, hword⟩, hrest, rfl⟩ := exists_of_fields_eq_cons hcs
        refine .cons ⟨?_, hgap⟩ ha (ih hrest hwords)
        rintro rfl
        obtain ⟨c, word, rfl⟩ := List.exists_cons_of_ne_nil hne
        exact Bool.false_ne_true ((hword c List.mem_cons_self).symm.trans (hhead c rfl))

/-- The fields of a text are the parts that separators set apart, in order. -/
theorem lists_separated_iff
    (hpart : ∀ text a, part text a → text ≠ [] ∧ ∀ c ∈ text, p c = false) :
    Lists (.separated p) part cs as ↔ as ≠ [] ∧ List.Forall₂ part (fields p cs) as := by
  constructor
  · intro h
    cases h with
    | cons hgap ha h =>
        obtain ⟨hrest, hfields⟩ := (goesOn_separated_iff hpart).mp h
        obtain ⟨hne, htext⟩ := hpart _ _ ha
        rw [fields_gap_append hgap, fields_word_append hne htext hrest]
        exact ⟨List.cons_ne_nil _ _, .cons ha hfields⟩
  · rintro ⟨hne, hfields⟩
    obtain ⟨a, as, rfl⟩ := List.exists_cons_of_ne_nil hne
    obtain ⟨word, words, ha, hwords, hcs⟩ := List.forall₂_cons_right_iff.mp hfields
    obtain ⟨gap, rest, rfl, hgap, -, hrest, rfl⟩ := exists_of_fields_eq_cons hcs
    exact .cons hgap ha ((goesOn_separated_iff hpart).mpr ⟨hrest, hwords⟩)

end ReversePolish.Text
