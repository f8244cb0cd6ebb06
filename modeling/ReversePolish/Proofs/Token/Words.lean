import ReversePolish.Proofs.Session.Submission
import ReversePolish.Proofs.Text.Blank

/-! # The words of a line

A line splits into words at its blanks, and behind the bracket that closes a word. A line put
together from two others with a blank between them has the words of both. -/

namespace ReversePolish.Token

open Outcome

/-- What remains of a line consists of these words. -/
inductive Splits : List Char → List String → Prop where
  | nil : Splits [] []
  | blank {c : Char} {cs : List Char} {ws : List String} (hc : Text.isBlank c)
      (h : Splits cs ws) : Splits (c :: cs) ws
  | bracketed {inside rest : List Char} {ws : List String}
      (hinside : balanced? 0 (inside ++ rest) = some (inside, rest)) (h : Splits rest ws) :
      Splits ('[' :: (inside ++ rest)) (String.ofList ('[' :: inside) :: ws)
  | bare {w rest : List Char} {ws : List String} (hne : w ≠ []) (hbare : ∀ c ∈ w, isBare c)
      (hrest : ∀ c ∈ rest.head?, Text.isBlank c) (h : Splits rest ws) :
      Splits (w ++ rest) (String.ofList w :: ws)

/-! ## What the scanner finds -/

theorem isBare_iff {c : Char} : isBare c ↔ ¬ Text.isBlank c ∧ c ≠ '[' ∧ c ≠ ']' := by
  simp [isBare, isBracket]

theorem isBracket_eq_false_iff {c : Char} : isBracket c = false ↔ c ≠ '[' ∧ c ≠ ']' := by
  simp [isBracket]

theorem isBracket_of_isBlank {c : Char} (h : Text.isBlank c) : isBracket c = false := by
  rw [Bool.eq_false_iff]
  intro hbracket
  rcases (by simpa [isBracket] using hbracket : c = '[' ∨ c = ']') with rfl | rfl
  · exact absurd h (by decide)
  · exact absurd h (by decide)

theorem scan_bracketed (offset : ℕ) {inside rest : List Char}
    (h : balanced? 0 (inside ++ rest) = some (inside, rest)) :
    scan offset ('[' :: (inside ++ rest)) =
      (scan (offset + byteCount ('[' :: inside)) rest).map
        (⟨String.ofList ('[' :: inside), offset⟩ :: ·) := by
  rw [scan, if_neg (by decide), if_neg (by decide), if_pos rfl]
  split
  · next hnone =>
      rw [h] at hnone
      cases hnone
  · next hsome =>
      rw [h] at hsome
      obtain ⟨rfl, rfl⟩ := Prod.mk.inj (Option.some.inj hsome)
      rfl

theorem scan_unbalanced (offset : ℕ) {rest : List Char} (h : balanced? 0 rest = none) :
    scan offset ('[' :: rest) = .error (.parse (String.ofList ('[' :: rest)) .openBracket) := by
  rw [scan, if_neg (by decide), if_neg (by decide), if_pos rfl]
  split
  · rfl
  · next hsome =>
      rw [h] at hsome
      cases hsome

theorem takeWhile_isBare {w rest : List Char} (hbare : ∀ c ∈ w, isBare c)
    (hrest : ∀ c ∈ rest.head?, Text.isBlank c) :
    (w ++ rest).takeWhile isBare = w ∧ (w ++ rest).dropWhile isBare = rest :=
  (Text.takeWhile_dropWhile_iff _ _).mpr ⟨rfl, hbare, fun c hc => by simp [isBare, hrest c hc]⟩

theorem scan_bare (offset : ℕ) {w rest : List Char} (hne : w ≠ []) (hbare : ∀ c ∈ w, isBare c)
    (hrest : ∀ c ∈ rest.head?, Text.isBlank c) :
    scan offset (w ++ rest) =
      (scan (offset + byteCount w) rest).map (⟨String.ofList w, offset⟩ :: ·) := by
  obtain ⟨hword, -⟩ := takeWhile_isBare hbare hrest
  obtain ⟨c, w, rfl⟩ := List.exists_cons_of_ne_nil hne
  obtain ⟨hblank, hopen, hclose⟩ := isBare_iff.mp (hbare c List.mem_cons_self)
  obtain ⟨-, hafter⟩ := takeWhile_isBare (fun d hd => hbare d (List.mem_cons_of_mem c hd)) hrest
  have hnext : rest.head?.any isBracket = false := by
    cases hhead : rest.head? with
    | none => rfl
    | some d => exact isBracket_of_isBlank (hrest d hhead)
  rw [List.cons_append] at hword ⊢
  rw [scan, if_neg hblank, if_neg hclose, if_neg hopen]
  simp [hafter, hword, hnext]

theorem splits_of_scan {offset : ℕ} {cs : List Char} {ws : List String}
    (h : (scan offset cs).map (·.map text) = .ok ws) : Splits cs ws := by
  induction offset, cs using scan.induct generalizing ws with
  | case1 =>
      rw [scan] at h
      cases h
      exact .nil
  | case2 offset c rest hblank ih =>
      rw [scan, if_pos hblank] at h
      exact .blank hblank (ih h)
  | case3 =>
      rw [scan, if_neg (by decide), if_pos rfl] at h
      cases h
  | case4 offset rest hnone =>
      rw [scan_unbalanced offset hnone] at h
      cases h
  | case5 offset rest inside after hinside =>
      rename_i ih
      obtain rfl := balanced?_append hinside
      rw [scan_bracketed offset hinside] at h
      obtain ⟨tokens, htokens, rfl⟩ := map_eq_ok.mp h
      obtain ⟨tokens, hrest, rfl⟩ := map_eq_ok.mp htokens
      exact .bracketed hinside (ih (by rw [hrest]; rfl))
  | case6 offset c rest hblank hclose hopen after =>
      rename_i hbracket
      rw [scan, if_neg hblank, if_neg hclose, if_neg hopen, if_pos hbracket] at h
      cases h
  | case7 offset c rest hblank hclose hopen after =>
      rename_i hbracket w ih
      have hc : isBare c := isBare_iff.mpr ⟨hblank, hopen, hclose⟩
      have hdrop : (c :: rest).dropWhile isBare = after := List.dropWhile_cons_of_pos hc
      obtain ⟨hline, hbare, hstop⟩ := (Text.takeWhile_dropWhile_iff _ _).mp ⟨rfl, hdrop⟩
      have hne : w ≠ [] := by simp [w, hc]
      have hrest : ∀ d ∈ after.head?, Text.isBlank d := by
        intro d hd
        have hnot : isBare d = false := hstop d hd
        have hbracket : isBracket d = false := by simpa [Option.mem_def.mp hd] using hbracket
        simpa [isBare, hbracket] using hnot
      rw [hline, scan_bare offset hne hbare hrest] at h
      obtain ⟨tokens, htokens, rfl⟩ := map_eq_ok.mp h
      obtain ⟨tokens, hafter, rfl⟩ := map_eq_ok.mp htokens
      rw [hline]
      exact .bare hne hbare hrest (ih (by rw [hafter]; rfl))

theorem Splits.scan_eq {cs : List Char} {ws : List String} (h : Splits cs ws) (offset : ℕ) :
    (scan offset cs).map (·.map text) = .ok ws := by
  induction h generalizing offset with
  | nil =>
      rw [scan]
      rfl
  | blank hc h ih =>
      rw [scan, if_pos hc]
      exact ih _
  | bracketed hinside h ih =>
      obtain ⟨tokens, htokens, rfl⟩ := map_eq_ok.mp (ih _)
      rw [scan_bracketed offset hinside, htokens]
      rfl
  | bare hne hbare hrest h ih =>
      obtain ⟨tokens, htokens, rfl⟩ := map_eq_ok.mp (ih _)
      rw [scan_bare offset hne hbare hrest, htokens]
      rfl

/-- A text that does not split fails alike wherever it stands. -/
theorem scan_eq_error {offset : ℕ} {cs : List Char} {err : Error}
    (h : scan offset cs = .error err) (offset' : ℕ) : scan offset' cs = .error err := by
  induction offset, cs using scan.induct generalizing offset' with
  | case1 =>
      rw [scan] at h
      cases h
  | case2 offset c rest hblank ih =>
      rw [scan, if_pos hblank] at h ⊢
      exact ih h _
  | case3 =>
      rw [scan, if_neg (by decide), if_pos rfl] at h ⊢
      exact h
  | case4 offset rest hnone =>
      rw [scan_unbalanced _ hnone] at h ⊢
      exact h
  | case5 offset rest inside after hinside =>
      rename_i ih
      obtain rfl := balanced?_append hinside
      rw [scan_bracketed _ hinside, map_eq_error] at h ⊢
      exact ih h _
  | case6 offset c rest hblank hclose hopen after =>
      rename_i hbracket
      rw [scan, if_neg hblank, if_neg hclose, if_neg hopen, if_pos hbracket] at h ⊢
      exact h
  | case7 offset c rest hblank hclose hopen after =>
      rename_i hbracket w ih
      rw [scan, if_neg hblank, if_neg hclose, if_neg hopen, if_neg hbracket, map_eq_error] at h ⊢
      exact ih h _

/-- Where a text stands makes no difference to its words. -/
theorem map_text_scan (offset : ℕ) (cs : List Char) :
    (scan offset cs).map (·.map text) = (scan 0 cs).map (·.map text) := by
  cases h : scan 0 cs with
  | error err => rw [scan_eq_error h offset]
  | ok tokens =>
      have hsplits : Splits cs (tokens.map text) := splits_of_scan (congrArg (Except.map _) h)
      exact hsplits.scan_eq offset

theorem words_eq_ok {line : String} {ws : List String} :
    words line = .ok ws ↔ Splits line.toList ws :=
  ⟨splits_of_scan, fun h => h.scan_eq 0⟩

/-! ## Lines of one word -/

theorem scanLine_of_bare {text : String} (hne : text.toList ≠ [])
    (hbare : ∀ c ∈ text.toList, isBare c) : scanLine text = .ok [⟨text, 0⟩] := by
  have hscan := @scan_bare 0 text.toList [] hne hbare nofun
  rw [List.append_nil, scan, String.ofList_toList] at hscan
  exact hscan

theorem words_of_bare {text : String} (hne : text.toList ≠ [])
    (hbare : ∀ c ∈ text.toList, isBare c) : words text = .ok [text] := by
  rw [words, scanLine_of_bare hne hbare]
  rfl

/-- Whether every bracket that opens in the text closes there, and no other does. -/
def Closed (cs : List Char) : Prop :=
  ∀ depth rest, balanced? depth (cs ++ rest) =
    (balanced? depth rest).map fun (inside, after) => (cs ++ inside, after)

theorem closed_of_not_isBracket {cs : List Char} (h : ∀ c ∈ cs, isBracket c = false) :
    Closed cs := by
  intro depth rest
  induction cs with
  | nil => simp
  | cons c cs ih =>
      obtain ⟨hc, hcs⟩ := List.forall_mem_cons.mp h
      obtain ⟨hopen, hclose⟩ := isBracket_eq_false_iff.mp hc
      simp [balanced?, hopen, hclose, ih hcs, Function.comp_def]

theorem Closed.append {cs more : List Char} (h : Closed cs) (hmore : Closed more) :
    Closed (cs ++ more) := by
  intro depth rest
  rw [List.append_assoc, h depth, hmore depth]
  simp [Function.comp_def]

theorem scanLine_of_closed {text : String} {inside : List Char} (h : Closed inside)
    (htext : text.toList = '[' :: (inside ++ [']'])) : scanLine text = .ok [⟨text, 0⟩] := by
  have hend : balanced? 0 (inside ++ [']'] ++ []) = some (inside ++ [']'], []) := by
    rw [List.append_nil, h 0]
    rfl
  have hscan := scan_bracketed 0 hend
  rw [List.append_nil, ← htext, scan, String.ofList_toList] at hscan
  exact hscan

/-! ## Lines put together -/

/-- What stands behind the closing bracket makes no difference. -/
theorem balanced?_inside_append {depth : ℕ} {cs inside rest : List Char}
    (h : balanced? depth cs = some (inside, rest)) (more : List Char) :
    balanced? depth (inside ++ more) = some (inside, more) := by
  fun_induction balanced? depth cs generalizing inside rest with
  | case1 => cases h
  | case2 _ _ ih | case4 _ _ _ ih =>
      obtain ⟨⟨i, r⟩, hr, h⟩ := Option.map_eq_some_iff.mp h
      obtain ⟨rfl, rfl⟩ := Prod.mk.inj h
      simp [balanced?, ih hr]
  | case3 cs =>
      obtain ⟨rfl, rfl⟩ := Prod.mk.inj (Option.some.inj h)
      simp [balanced?]
  | case5 depth c cs hopen hclose ih =>
      obtain ⟨⟨i, r⟩, hr, h⟩ := Option.map_eq_some_iff.mp h
      obtain ⟨rfl, rfl⟩ := Prod.mk.inj h
      simp [balanced?, hopen, hclose, ih hr]

/-- What stands behind a text that splits is split as if it stood alone, as long as they meet at a
blank. -/
theorem Splits.scan_append {cs : List Char} {ws : List String} (h : Splits cs ws)
    {rest : List Char}
    (hgap : (∀ c ∈ cs.getLast?, Text.isBlank c) ∨ ∀ c ∈ rest.head?, Text.isBlank c) (offset : ℕ) :
    (scan offset (cs ++ rest)).map (·.map text) =
      ((scan 0 rest).map (·.map text)).map (ws ++ ·) := by
  -- What ends in a blank still does so behind any characters in front.
  have hend {a cs : List Char} (hgap : (∀ c ∈ (a ++ cs).getLast?, Text.isBlank c) ∨
      ∀ c ∈ rest.head?, Text.isBlank c) :
      (∀ c ∈ cs.getLast?, Text.isBlank c) ∨ ∀ c ∈ rest.head?, Text.isBlank c := by
    refine hgap.imp_left fun hlast c hc => hlast c ?_
    rw [List.getLast?_append, Option.mem_def.mp hc]
    rfl
  have hcons (w : String) (offset : ℕ) (x : Except Error (List Token)) :
      (x.map (⟨w, offset⟩ :: ·)).map (·.map text) = (x.map (·.map text)).map (w :: ·) := by
    cases x <;> rfl
  induction h generalizing offset with
  | nil =>
      rw [List.nil_append, map_text_scan]
      cases scan 0 rest <;> rfl
  | @blank c cs ws hc h ih =>
      rw [List.cons_append, scan, if_pos hc]
      exact ih (hend (a := [c]) hgap) _
  | @bracketed inside cs ws hinside h ih =>
      have hinside : balanced? 0 (inside ++ (cs ++ rest)) = some (inside, cs ++ rest) :=
        balanced?_inside_append hinside _
      rw [List.cons_append, List.append_assoc, scan_bracketed _ hinside]
      rw [hcons, ih (hend (a := '[' :: inside) hgap)]
      cases scan 0 rest <;> rfl
  | @bare w cs ws hne hbare hcs h ih =>
      have hnext : ∀ c ∈ (cs ++ rest).head?, Text.isBlank c := by
        cases cs with
        | cons d cs => simpa using hcs
        | nil =>
            refine hgap.resolve_left fun hlast => ?_
            have hw : (w ++ []).getLast? = some (w.getLast hne) := by
              rw [List.append_nil, List.getLast?_eq_some_getLast hne]
            exact (isBare_iff.mp (hbare _ (List.getLast_mem hne))).1 (hlast _ hw)
      rw [List.append_assoc, scan_bare _ hne hbare hnext]
      rw [hcons, ih (hend hgap)]
      cases scan 0 rest <;> rfl

/-- Lines that meet at a blank have the words of both. -/
theorem Splits.join {cs more : List Char} {ws vs : List String} (h : Splits cs ws)
    (hmore : Splits more vs)
    (hgap : (∀ c ∈ cs.getLast?, Text.isBlank c) ∨ ∀ c ∈ more.head?, Text.isBlank c) :
    Splits (cs ++ more) (ws ++ vs) := by
  have hscan := h.scan_append hgap 0
  rw [hmore.scan_eq] at hscan
  exact splits_of_scan hscan

theorem Splits.append {cs more : List Char} {ws vs : List String} (h : Splits cs ws)
    (hmore : Splits more vs) : Splits (cs ++ ' ' :: more) (ws ++ vs) :=
  h.join (.blank (by decide) hmore) (.inr (by simp [Text.isBlank]))

/-- The second text begins behind the last blank of the line. -/
theorem words_join {a b : String} {as bs : List String} (ha : words a = .ok as)
    (hb : words b = .ok bs) (hlast : ∀ c ∈ a.toList.getLast?, Text.isBlank c) :
    words (a ++ b) = .ok (as ++ bs) := by
  rw [words_eq_ok] at ha hb ⊢
  rw [String.toList_append]
  exact ha.join hb (.inl hlast)

theorem words_append {a b : String} {as bs : List String} (ha : words a = .ok as)
    (hb : words b = .ok bs) : words (a ++ " " ++ b) = .ok (as ++ bs) := by
  rw [words_eq_ok] at ha hb ⊢
  simpa using ha.append hb

/-- Every word of a line is a line of one word. -/
theorem Splits.words_eq {cs : List Char} {ws : List String} (h : Splits cs ws) :
    ∀ w ∈ ws, words w = .ok [w] := by
  induction h with
  | nil => simp
  | blank hc h ih => exact ih
  | bracketed hinside h ih =>
      have halone := Splits.bracketed (balanced?_inside_append hinside []) .nil
      refine List.forall_mem_cons.mpr ⟨words_eq_ok.mpr ?_, ih⟩
      simpa using halone
  | bare hne hbare hrest h ih =>
      exact List.forall_mem_cons.mpr ⟨words_of_bare (by simpa using hne) (by simpa using hbare), ih⟩

/-- Words of which each is a line of one word make up the line in which they follow each other. -/
theorem words_intercalate {ws : List String} (h : ∀ w ∈ ws, words w = .ok [w]) :
    words (" ".intercalate ws) = .ok ws := by
  induction ws with
  | nil =>
      rw [String.intercalate_nil, words_eq_ok]
      exact .nil
  | cons w ws ih =>
      obtain ⟨hw, hws⟩ := List.forall_mem_cons.mp h
      cases ws with
      | nil => simpa using hw
      | cons v ws =>
          rw [String.intercalate_cons_cons]
          exact words_append hw (ih hws)

end ReversePolish.Token
