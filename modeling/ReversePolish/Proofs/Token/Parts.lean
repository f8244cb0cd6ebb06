import ReversePolish.Proofs.Token.Words

/-! # The parts of a line

A line is a sequence of blanks and tokens in at most one way, and the scanner finds the tokens of
that sequence or nothing. -/

namespace ReversePolish.Token

open Outcome

/-- A blank or a token. -/
inductive Part where
  | blank (c : Char)
  | token (cs : List Char)

namespace Part

def text : Part → List Char
  | blank c => [c]
  | token cs => cs

end Part

/-- The brackets that open less those that close. -/
def depth (cs : List Char) : ℤ := cs.count '[' - cs.count ']'

/-- The bracket in front closes with the last character and not before. -/
structure IsBracketed (cs : List Char) : Prop where
  opens : cs.head? = some '['
  closes : depth cs = 0
  inside : ∀ front, front <+: cs → front ≠ [] → front ≠ cs → depth front ≠ 0

/-- What a part looks like in front of the rest of its line. -/
inductive Part.Leads : Part → List Char → Prop where
  | blank {c : Char} {rest : List Char} (hc : Text.isBlank c) : Leads (.blank c) rest
  | bracketed {cs rest : List Char} (hcs : IsBracketed cs) : Leads (.token cs) rest
  | bare {cs rest : List Char} (hne : cs ≠ [])
      (hbare : ∀ c ∈ cs, ¬ Text.isBlank c ∧ c ≠ '[' ∧ c ≠ ']')
      (hrest : ∀ c ∈ rest.head?, Text.isBlank c) : Leads (.token cs) rest

/-- What remains of a line consists of these parts. -/
inductive SplitsInto : List Char → List Part → Prop where
  | nil : SplitsInto [] []
  | cons {part : Part} {rest : List Char} {parts : List Part} (hpart : part.Leads rest)
      (h : SplitsInto rest parts) : SplitsInto (part.text ++ rest) (part :: parts)

/-- The tokens among the parts, when the first part is at the given offset. -/
def tokensAt : ℕ → List Part → List Token
  | _, [] => []
  | offset, .blank c :: parts => tokensAt (offset + c.utf8Size) parts
  | offset, .token cs :: parts =>
      ⟨String.ofList cs, offset⟩ :: tokensAt (offset + byteCount cs) parts

/-! ## Where a bracket closes -/

@[simp] theorem depth_nil : depth [] = 0 := rfl

theorem depth_cons (c : Char) (cs : List Char) : depth (c :: cs) = depth [c] + depth cs := by
  simp only [depth, List.count_cons, List.count_nil]
  omega

theorem depth_open_cons (cs : List Char) : depth ('[' :: cs) = 1 + depth cs := depth_cons '[' cs

theorem depth_singleton {c : Char} (hopen : c ≠ '[') (hclose : c ≠ ']') : depth [c] = 0 := by
  simp [depth, hopen, hclose]

/-- The text closes what is open, with its last character and not before. -/
def Closes (opened : ℤ) (cs : List Char) : Prop :=
  ∀ front, front <+: cs → (opened + depth front = 0 ↔ front = cs)

theorem closes_nil {opened : ℤ} : Closes opened [] ↔ opened = 0 := by
  simp [Closes, List.prefix_nil]

theorem closes_zero {cs : List Char} : Closes 0 cs ↔ cs = [] := by
  constructor
  · intro h
    exact ((h [] (List.nil_prefix)).mp rfl).symm
  · rintro rfl
    exact closes_nil.mpr rfl

theorem closes_cons {opened : ℤ} {c : Char} {cs : List Char} (hopened : opened ≠ 0) :
    Closes opened (c :: cs) ↔ Closes (opened + depth [c]) cs := by
  constructor
  · intro h front hfront
    have hcons := h (c :: front) (List.cons_prefix_cons.mpr ⟨rfl, hfront⟩)
    rw [depth_cons, ← Int.add_assoc] at hcons
    simpa using hcons
  · intro h front hfront
    rcases List.prefix_cons_iff.mp hfront with rfl | ⟨front, rfl, htail⟩
    · simpa using hopened
    · rw [depth_cons, ← Int.add_assoc, h front htail]
      simp

theorem isBracketed_iff {cs : List Char} :
    IsBracketed cs ↔ ∃ inside, cs = '[' :: inside ∧ Closes 1 inside := by
  constructor
  · rintro ⟨hopens, hcloses, hinside⟩
    obtain ⟨inside, rfl⟩ := List.head?_eq_some_iff.mp hopens
    refine ⟨inside, rfl, fun front hfront => ⟨fun hzero => ?_, ?_⟩⟩
    · by_contra hne
      refine hinside ('[' :: front) (List.cons_prefix_cons.mpr ⟨rfl, hfront⟩) nofun ?_ ?_
      · simpa using hne
      · rw [depth_open_cons, hzero]
    · rintro rfl
      rw [← depth_open_cons, hcloses]
  · rintro ⟨inside, rfl, h⟩
    refine ⟨rfl, ?_, fun front hfront hne hproper => ?_⟩
    · rw [depth_open_cons, (h inside (List.prefix_refl _)).mpr rfl]
    · obtain ⟨front, rfl, hinside⟩ := (List.prefix_cons_iff.mp hfront).resolve_left hne
      rw [depth_open_cons, ne_eq, h front hinside]
      simpa using hproper

theorem balanced?_ne_nil (opened : ℕ) (cs rest : List Char) :
    balanced? opened cs ≠ some ([], rest) := by
  fun_cases balanced? opened cs <;> simp

theorem balanced?_eq_some_iff {opened : ℕ} {inside rest : List Char} :
    balanced? opened (inside ++ rest) = some (inside, rest) ↔ Closes (opened + 1) inside := by
  have hpos (n : ℕ) : (n : ℤ) + 1 ≠ 0 := by omega
  induction inside generalizing opened with
  | nil =>
      rw [closes_nil, iff_false_right (hpos opened)]
      exact balanced?_ne_nil opened rest rest
  | cons c inside ih =>
      rw [closes_cons (hpos opened), List.cons_append]
      by_cases hopen : c = '['
      · subst hopen
        have hdepth : depth ['['] = 1 := by decide
        rw [hdepth]
        simpa [balanced?] using @ih (opened + 1)
      by_cases hclose : c = ']'
      · subst hclose
        have hdepth : depth [']'] = -1 := by decide
        rw [hdepth]
        cases opened with
        | zero => simp [balanced?, closes_zero]
        | succ opened =>
            rw [Int.add_neg_cancel_right]
            simpa [balanced?] using @ih opened
      · rw [depth_singleton hopen hclose, Int.add_zero]
        simpa [balanced?, hopen, hclose] using @ih opened

theorem balanced?_inside {inside rest : List Char} :
    balanced? 0 (inside ++ rest) = some (inside, rest) ↔ IsBracketed ('[' :: inside) := by
  rw [balanced?_eq_some_iff, isBracketed_iff]
  simp

/-! ## There is one way -/

/-- What a text begins with. -/
def first? : List Char → Option Part
  | [] => none
  | c :: cs =>
      if Text.isBlank c then some (.blank c)
      else if c = '[' then (balanced? 0 cs).map fun (inside, _) => .token (c :: inside)
      else some (.token ((c :: cs).takeWhile isBare))

theorem Part.Leads.first? {part : Part} {rest : List Char} (h : part.Leads rest) :
    first? (part.text ++ rest) = some part := by
  cases h with
  | blank hc => exact if_pos hc
  | bracketed hcs =>
      obtain ⟨inside, rfl, -⟩ := isBracketed_iff.mp hcs
      have hopen : ¬ Text.isBlank '[' := by decide
      simp [Part.text, Token.first?, hopen, balanced?_inside.mpr hcs]
  | @bare cs rest hne hbare hrest =>
      obtain ⟨hword, -⟩ := takeWhile_isBare (fun c hc => isBare_iff.mpr (hbare c hc)) hrest
      obtain ⟨c, cs, rfl⟩ := List.exists_cons_of_ne_nil hne
      obtain ⟨hblank, hopen, -⟩ := hbare c List.mem_cons_self
      rw [Part.text, List.cons_append, Token.first?, if_neg hblank, if_neg hopen,
        ← List.cons_append, hword]

theorem SplitsInto.unique {cs : List Char} {parts parts' : List Part} (h : SplitsInto cs parts)
    (h' : SplitsInto cs parts') : parts = parts' := by
  induction h generalizing parts' with
  | nil =>
      generalize hcs : [] = cs at h'
      cases h' with
      | nil => rfl
      | cons hpart' h' => exact absurd hpart'.first? (by simp [← hcs, first?])
  | @cons part rest parts hpart h ih =>
      generalize hcs : part.text ++ rest = cs at h'
      cases h' with
      | nil => exact absurd hpart.first? (by simp [hcs, first?])
      | @cons part' rest' parts' hpart' h' =>
          -- Both begin with what the text begins with, and so leave the same rest.
          obtain rfl : part = part' := by
            rw [← Option.some_inj, ← hpart.first?, ← hpart'.first?, hcs]
          obtain rfl := List.append_cancel_left hcs
          rw [ih h']

/-! ## What the scanner returns -/

theorem SplitsInto.scan_eq {cs : List Char} {parts : List Part} (h : SplitsInto cs parts)
    (offset : ℕ) : scan offset cs = .ok (tokensAt offset parts) := by
  induction h generalizing offset with
  | nil => rw [scan, tokensAt]
  | cons hpart h ih =>
      cases hpart with
      | blank hc =>
          rw [Part.text, List.singleton_append, scan, if_pos hc, tokensAt]
          exact ih _
      | bracketed hcs =>
          obtain ⟨inside, rfl, -⟩ := isBracketed_iff.mp hcs
          rw [Part.text, List.cons_append, scan_bracketed offset (balanced?_inside.mpr hcs), ih]
          rfl
      | bare hne hbare hrest =>
          rw [Part.text, scan_bare offset hne (fun c hc => isBare_iff.mpr (hbare c hc)) hrest, ih]
          rfl

theorem Splits.exists_parts {cs : List Char} {ws : List String} (h : Splits cs ws) :
    ∃ parts, SplitsInto cs parts := by
  induction h with
  | nil => exact ⟨[], .nil⟩
  | blank hc h ih =>
      obtain ⟨parts, hparts⟩ := ih
      exact ⟨_, .cons (.blank hc) hparts⟩
  | bracketed hinside h ih =>
      obtain ⟨parts, hparts⟩ := ih
      exact ⟨_, .cons (.bracketed (balanced?_inside.mp hinside)) hparts⟩
  | bare hne hbare hrest h ih =>
      obtain ⟨parts, hparts⟩ := ih
      exact ⟨_, .cons (.bare hne (fun c hc => isBare_iff.mp (hbare c hc)) hrest) hparts⟩

theorem scan_eq_ok_iff {offset : ℕ} {cs : List Char} {tokens : List Token} :
    scan offset cs = .ok tokens ↔
      ∃ parts, SplitsInto cs parts ∧ tokens = tokensAt offset parts := by
  constructor
  · intro h
    obtain ⟨parts, hparts⟩ := (splits_of_scan (map_eq_ok.mpr ⟨tokens, h, rfl⟩)).exists_parts
    rw [hparts.scan_eq] at h
    exact ⟨parts, hparts, (Except.ok.inj h).symm⟩
  · rintro ⟨parts, hparts, rfl⟩
    exact hparts.scan_eq offset

/-! ## Offsets -/

@[simp] theorem byteCount_cons (c : Char) (cs : List Char) :
    byteCount (c :: cs) = c.utf8Size + byteCount cs := rfl

theorem byteCount_append (cs more : List Char) :
    byteCount (cs ++ more) = byteCount cs + byteCount more := by
  induction cs with
  | nil => exact (Nat.zero_add _).symm
  | cons c cs ih => rw [List.cons_append, byteCount_cons, byteCount_cons, ih, Nat.add_assoc]

theorem utf8ByteSize_ofList (cs : List Char) : (String.ofList cs).utf8ByteSize = byteCount cs := by
  induction cs with
  | nil => rfl
  | cons c cs ih =>
      rw [String.ofList_cons, String.utf8ByteSize_append, String.utf8ByteSize_singleton, ih,
        byteCount_cons]

theorem mem_tokensAt_cons {offset : ℕ} {part : Part} {parts : List Part} {t : Token}
    (h : t ∈ tokensAt offset (part :: parts)) :
    (t.text.toList = part.text ∧ t.offset = offset) ∨
      t ∈ tokensAt (offset + byteCount part.text) parts := by
  cases part with
  | blank c => exact .inr h
  | token cs =>
      rcases List.mem_cons.mp h with rfl | h
      · exact .inl ⟨String.toList_ofList, rfl⟩
      · exact .inr h

theorem SplitsInto.slice {cs : List Char} {parts : List Part} (h : SplitsInto cs parts)
    {offset : ℕ} {t : Token} (ht : t ∈ tokensAt offset parts) :
    ∃ before after, cs = before ++ t.text.toList ++ after ∧
      t.offset = offset + byteCount before := by
  induction h generalizing offset with
  | nil => cases ht
  | @cons part rest parts hpart h ih =>
      rcases mem_tokensAt_cons ht with ⟨htext, hoffset⟩ | ht
      · exact ⟨[], rest, by rw [htext, List.nil_append], hoffset⟩
      · obtain ⟨before, after, hrest, hoffset⟩ := ih ht
        refine ⟨part.text ++ before, after, by simp [hrest], ?_⟩
        rw [hoffset, byteCount_append, Nat.add_assoc]

/-- The scanner returns the tokens of the only sequence of blanks and tokens that makes up the
line, each with its place, and fails where there is none. -/
theorem scanLine_follows_split (line : String) :
    (∀ tokens, scanLine line = .ok tokens ↔
        ∃ parts, SplitsInto line.toList parts ∧ tokens = tokensAt 0 parts) ∧
      (∀ parts parts', SplitsInto line.toList parts → SplitsInto line.toList parts' →
        parts = parts') ∧
      ∀ tokens, scanLine line = .ok tokens →
        (∀ t ∈ tokens, ∃ before after,
          line = before ++ t.text ++ after ∧ before.utf8ByteSize = t.offset) ∧
        ∃ again, scanLine (" ".intercalate (tokens.map text)) = .ok again ∧
          again.map text = tokens.map text := by
  refine ⟨fun _ => scan_eq_ok_iff, fun _ _ h h' => h.unique h', fun tokens h => ⟨?_, ?_⟩⟩
  · obtain ⟨parts, hparts, rfl⟩ := scan_eq_ok_iff.mp h
    intro t ht
    obtain ⟨before, after, hline, hoffset⟩ := hparts.slice ht
    refine ⟨String.ofList before, String.ofList after, ?_, ?_⟩
    · rw [← String.toList_inj, hline]
      simp
    · rw [utf8ByteSize_ofList, hoffset, Nat.zero_add]
  · have hwords : words line = .ok (tokens.map text) := map_eq_ok.mpr ⟨tokens, h, rfl⟩
    have hagain := words_intercalate (words_eq_ok.mp hwords).words_eq
    exact map_eq_ok.mp hagain

end ReversePolish.Token
