import Mathlib.Algebra.BigOperators.Group.List.Basic
import Mathlib.Data.Int.ModEq
import ReversePolish.Completion

/-! # The circle of candidates

The cursor goes round the candidates, one step for each move, and never leaves them. -/

namespace ReversePolish.Completion

/-- What may be asked between the start and the end of a completion. -/
inductive Turn where
  | next
  | previous
  | current
  deriving DecidableEq

/-- What may be asked of a completion. -/
inductive Action where
  | start (typed : String) (candidates : List String)
  | turn (t : Turn)
  | accept
  | cancel
  deriving DecidableEq

/-- How far a turn goes forward. -/
def Turn.shift : Turn → ℤ
  | next => 1
  | previous => -1
  | current => 0

def Action.isStart : Action → Bool
  | start .. => true
  | _ => false

/-- What an action asks, with the candidate that is the answer. -/
def Action.ask : Action → CompletionM (Option String)
  | start typed candidates => do
      let _ ← CompletionM.start typed candidates
      return none
  | turn .next => CompletionM.next
  | turn .previous => CompletionM.previous
  | turn .current => CompletionM.current
  | accept => CompletionM.accept
  | cancel => do
      CompletionM.cancel
      return none

/-- The completion after an action. -/
def act (c : Completion) (action : Action) : Completion := (action.ask.run c).2

/-- The candidate that is the answer to an action. -/
def answer? (c : Completion) (action : Action) : Option String := (action.ask.run c).1

/-- The completion after actions one by one. -/
def run (c : Completion) (actions : List Action) : Completion := actions.foldl act c

/-- The completion after turns one by one. -/
def turned (c : Completion) (turns : List Turn) : Completion := c.run (turns.map .turn)

/-- The move that takes the cursor from nowhere to a candidate. -/
def firstMove? (turns : List Turn) : Option Turn := turns.find? (· ≠ .current)

/-- The cursor is at one of the candidates, if anywhere, and there are candidates only where a
completion has begun. -/
structure Valid (c : Completion) : Prop where
  cursor_lt : ∀ i ∈ c.cursor, i < c.candidates.length
  initialized : c.candidates ≠ [] → c.initialized

/-- The cursor is at that place, counted round the circle of the candidates. -/
structure At (c : Completion) (place : ℤ) : Prop where
  active : c.isActive
  cursor_eq : ∃ i : ℕ, (i : ℤ) = place % c.candidates.length ∧ i < c.candidates.length ∧
    c.cursor = some i

variable {c : Completion} {place : ℤ}

/-! ## One action -/

theorem Valid.isActive_iff (h : c.Valid) : c.isActive ↔ c.candidates ≠ [] := by
  simpa [isActive] using h.initialized

theorem candidates_ne_nil (h : c.isActive) : c.candidates ≠ [] := by
  simp only [isActive, Bool.and_eq_true, Bool.not_eq_true', List.isEmpty_eq_false_iff] at h
  exact h.2

theorem run_move_of_active (h : c.isActive) (place : Option ℕ → ℕ → ℕ) :
    (CompletionM.move place).run c =
      let moved := { c with cursor := some (place c.cursor c.candidates.length) }
      (moved.current?, moved) := by
  have hcount : c.count? = some c.candidates.length := if_pos h
  simp only [CompletionM.move, StateT.run_bind, StateT.run_get, pure_bind, hcount]
  rfl

theorem run_move_of_inactive (h : c.isActive = false) (place : Option ℕ → ℕ → ℕ) :
    (CompletionM.move place).run c = (none, c) := by
  have hcount : c.count? = none := if_neg (by simp [h])
  simp only [CompletionM.move, StateT.run_bind, StateT.run_get, pure_bind, hcount]
  rfl

theorem act_next (h : c.isActive) : c.act (.turn .next) =
    { c with cursor := some (c.cursor.elim 0 fun i => (i + 1) % c.candidates.length) } := by
  rw [act, Action.ask, CompletionM.next, run_move_of_active h]

theorem act_previous (h : c.isActive) : c.act (.turn .previous) =
    let n := c.candidates.length
    { c with cursor := some (c.cursor.elim (n - 1) fun i => (i + n - 1) % n) } := by
  rw [act, Action.ask, CompletionM.previous, run_move_of_active h]

theorem act_turn_of_inactive (h : c.isActive = false) (t : Turn) : c.act (.turn t) = c := by
  cases t with
  | current => rfl
  | next => rw [act, Action.ask, CompletionM.next, run_move_of_inactive h]
  | previous => rw [act, Action.ask, CompletionM.previous, run_move_of_inactive h]

/-- A turn changes nothing but the cursor. -/
theorem act_turn (c : Completion) (t : Turn) :
    ∃ cursor, c.act (.turn t) = { c with cursor } := by
  cases h : c.isActive with
  | false => exact ⟨c.cursor, act_turn_of_inactive h t⟩
  | true =>
      cases t with
      | next => exact ⟨_, act_next h⟩
      | previous => exact ⟨_, act_previous h⟩
      | current => exact ⟨c.cursor, rfl⟩

@[simp]
theorem candidates_turn (c : Completion) (t : Turn) :
    (c.act (.turn t)).candidates = c.candidates := by
  obtain ⟨cursor, h⟩ := act_turn c t
  rw [h]

@[simp]
theorem isActive_turn (c : Completion) (t : Turn) :
    (c.act (.turn t)).isActive = c.isActive := by
  obtain ⟨cursor, h⟩ := act_turn c t
  rw [h]
  rfl

theorem Valid.cursor_eq_none (h : c.Valid) (hnone : c.candidates = []) : c.cursor = none := by
  by_contra hcursor
  obtain ⟨i, hi⟩ := Option.ne_none_iff_exists'.mp hcursor
  simpa [hnone] using h.cursor_lt i hi

theorem At.valid (h : c.At place) : c.Valid := by
  obtain ⟨hactive, i, -, hlt, hcursor⟩ := h
  refine ⟨by simpa [hcursor] using hlt, fun _ => ?_⟩
  exact (Bool.and_eq_true _ _ ▸ hactive).1

theorem At.turn (h : c.At place) (t : Turn) : (c.act (.turn t)).At (place + t.shift) := by
  obtain ⟨hactive, i, hplace, hlt, hcursor⟩ := h
  have hpos : 0 < c.candidates.length := by omega
  refine ⟨(isActive_turn c t).trans hactive, ?_⟩
  rw [candidates_turn]
  cases t with
  | next =>
      refine ⟨(i + 1) % c.candidates.length, ?_, Nat.mod_lt _ hpos, ?_⟩
      · push_cast
        rw [hplace, Int.emod_add_emod]
        rfl
      · simp [act_next hactive, hcursor]
  | previous =>
      refine ⟨(i + c.candidates.length - 1) % c.candidates.length, ?_, Nat.mod_lt _ hpos, ?_⟩
      · have hback : ((i + c.candidates.length - 1 : ℕ) : ℤ) = i + -1 + c.candidates.length := by
          omega
        rw [Int.natCast_emod, hback, Int.add_emod_right, hplace, Int.emod_add_emod]
        rfl
      · simp [act_previous hactive, hcursor]
  | current => exact ⟨i, by simpa [Turn.shift] using hplace, hlt, hcursor⟩

/-- From nowhere a move reaches an end of the candidates: forward it goes to the place where the
count begins, so that the step itself does not count. -/
theorem at_of_firstMove (hcursor : c.cursor = none) (hactive : c.isActive) :
    (c.act (.turn .next)).At 0 ∧ (c.act (.turn .previous)).At (-1) := by
  have hpos : 0 < c.candidates.length := List.length_pos_iff.mpr (candidates_ne_nil hactive)
  constructor
  · refine ⟨(isActive_turn c .next).trans hactive, ?_⟩
    rw [candidates_turn]
    exact ⟨0, by simp, hpos, by simp [act_next hactive, hcursor]⟩
  · refine ⟨(isActive_turn c .previous).trans hactive, ?_⟩
    rw [candidates_turn]
    refine ⟨c.candidates.length - 1, ?_, by omega, by simp [act_previous hactive, hcursor]⟩
    rw [← Int.add_emod_right, Int.emod_eq_of_lt (by omega) (by omega)]
    omega

theorem valid_idle : idle.Valid where
  cursor_lt := by simp [idle]
  initialized h := absurd rfl h

theorem valid_act (h : c.Valid) (action : Action) : (c.act action).Valid := by
  cases action with
  | start typed candidates => exact ⟨nofun, fun _ => rfl⟩
  | accept => exact valid_idle
  | cancel => exact valid_idle
  | turn t =>
      cases hactive : c.isActive with
      | false =>
          rw [act_turn_of_inactive hactive]
          exact h
      | true =>
          cases hcursor : c.cursor with
          | none =>
              cases t with
              | next => exact (at_of_firstMove hcursor hactive).1.valid
              | previous => exact (at_of_firstMove hcursor hactive).2.valid
              | current => exact h
          | some i =>
              have hlt : i < c.candidates.length := h.cursor_lt i hcursor
              have hplace : (i : ℤ) = i % c.candidates.length :=
                (Int.emod_eq_of_lt (by omega) (by omega)).symm
              have hi : c.At i := ⟨hactive, i, hplace, hlt, hcursor⟩
              exact (hi.turn t).valid

/-! ## Runs -/

theorem valid_run (h : c.Valid) (actions : List Action) : (c.run actions).Valid := by
  induction actions generalizing c with
  | nil => exact h
  | cons action actions ih => exact ih (valid_act h action)

@[simp]
theorem turned_cons (c : Completion) (t : Turn) (turns : List Turn) :
    c.turned (t :: turns) = (c.act (.turn t)).turned turns := rfl

theorem At.turned (h : c.At place) (turns : List Turn) :
    (c.turned turns).At (place + (turns.map Turn.shift).sum) := by
  induction turns generalizing c place with
  | nil => simpa [Completion.turned, run] using h
  | cons t turns ih =>
      rw [List.map_cons, List.sum_cons, ← add_assoc]
      exact ih (h.turn t)

theorem sum_shift (turns : List Turn) :
    (turns.map Turn.shift).sum = (turns.count .next : ℤ) - turns.count .previous := by
  induction turns with
  | nil => rfl
  | cons t turns ih =>
      rw [List.map_cons, List.sum_cons, ih]
      cases t with
      | next =>
          simp [Turn.shift]
          omega
      | previous =>
          simp [Turn.shift]
          omega
      | current => simp [Turn.shift]

/-- Before the first move nothing happens. -/
theorem turned_of_firstMove?_eq_none {turns : List Turn} (h : firstMove? turns = none) :
    c.turned turns = c := by
  induction turns with
  | nil => rfl
  | cons t turns ih =>
      cases t with
      | current => exact ih h
      | next => simp [firstMove?] at h
      | previous => simp [firstMove?] at h

theorem turned_of_firstMove?_eq_some {turns : List Turn} {first : Turn}
    (h : firstMove? turns = some first) : ∃ rest,
      c.turned turns = (c.act (.turn first)).turned rest ∧
        (turns.map Turn.shift).sum = first.shift + (rest.map Turn.shift).sum := by
  induction turns with
  | nil => simp [firstMove?] at h
  | cons t turns ih =>
      cases t with
      | current =>
          obtain ⟨rest, hturned, hsum⟩ := ih h
          exact ⟨rest, hturned, by simpa [Turn.shift] using hsum⟩
      | next =>
          obtain rfl : Turn.next = first := by simpa [firstMove?] using h
          exact ⟨turns, rfl, by simp⟩
      | previous =>
          obtain rfl : Turn.previous = first := by simpa [firstMove?] using h
          exact ⟨turns, rfl, by simp⟩

theorem at_of_firstMove?_next (hcursor : c.cursor = none) (hactive : c.isActive)
    {turns : List Turn} (h : firstMove? turns = some .next) :
    (c.turned turns).At (turns.count .next - turns.count .previous - 1) := by
  obtain ⟨rest, hturned, hsum⟩ := turned_of_firstMove?_eq_some (c := c) h
  have hplace : (turns.count .next - turns.count .previous - 1 : ℤ) =
      0 + (rest.map Turn.shift).sum := by
    rw [← sum_shift, hsum, Turn.shift, zero_add, add_sub_cancel_left]
  rw [hturned, hplace]
  exact (at_of_firstMove hcursor hactive).1.turned rest

theorem at_of_firstMove?_previous (hcursor : c.cursor = none) (hactive : c.isActive)
    {turns : List Turn} (h : firstMove? turns = some .previous) :
    (c.turned turns).At (turns.count .next - turns.count .previous) := by
  obtain ⟨rest, hturned, hsum⟩ := turned_of_firstMove?_eq_some (c := c) h
  rw [hturned, ← sum_shift, hsum]
  exact (at_of_firstMove hcursor hactive).2.turned rest

/-- What has ended stays so until the next start. -/
theorem run_idle {actions : List Action} (h : ∀ action ∈ actions, action.isStart = false) :
    idle.run actions = idle := by
  induction actions with
  | nil => rfl
  | cons action actions ih =>
      obtain ⟨haction, hactions⟩ := List.forall_mem_cons.mp h
      have hstep : idle.act action = idle := by
        cases action with
        | start typed candidates => simp [Action.isStart] at haction
        | turn t => exact act_turn_of_inactive rfl t
        | accept => rfl
        | cancel => rfl
      rw [run, List.foldl_cons, hstep]
      exact ih hactions

/-! ## The contract -/

/-- The current candidate is the one at that place of the circle. -/
def Shows (c : Completion) (candidates : List String) (place : ℤ) : Prop :=
  ∃ (i : ℕ) (h : i < candidates.length),
    (i : ℤ) = place % candidates.length ∧ c.current? = some candidates[i]

theorem At.shows (h : c.At place) : c.Shows c.candidates place := by
  obtain ⟨-, i, hplace, hlt, hcursor⟩ := h
  exact ⟨i, hlt, hplace, by simp [current?, hcursor, hlt]⟩

@[simp]
theorem candidates_turned (c : Completion) (turns : List Turn) :
    (c.turned turns).candidates = c.candidates := by
  induction turns generalizing c with
  | nil => rfl
  | cons t turns ih => rw [turned_cons, ih, candidates_turn]

theorem answer?_of_inactive (h : c.Valid) (hactive : c.isActive = false) (t : Turn) :
    c.answer? (.turn t) = none := by
  cases t with
  | next => rw [answer?, Action.ask, CompletionM.next, run_move_of_inactive hactive]
  | previous => rw [answer?, Action.ask, CompletionM.previous, run_move_of_inactive hactive]
  | current =>
      have hnone : c.candidates = [] := by
        by_contra hne
        simp [h.isActive_iff.mpr hne] at hactive
      change c.current? = none
      rw [current?, h.cursor_eq_none hnone]
      rfl

theorem answer?_turn (h : c.Valid) (t : Turn) :
    c.answer? (.turn t) = (c.act (.turn t)).current? := by
  cases hactive : c.isActive with
  | false =>
      have hcurrent : c.answer? (.turn .current) = none := answer?_of_inactive h hactive .current
      rw [answer?_of_inactive h hactive, act_turn_of_inactive hactive]
      exact hcurrent.symm
  | true =>
      cases t with
      | next => rw [answer?, act, Action.ask, CompletionM.next, run_move_of_active hactive]
      | previous => rw [answer?, act, Action.ask, CompletionM.previous, run_move_of_active hactive]
      | current => rfl

/-- Turns after a start lead to the candidate at the number of moves forward less those back, where
a first move forward does not count. A move answers with the candidate it leads to. What is accepted
is the current candidate, and after that, as after giving up, there are no candidates until the next
start. -/
structure Circles (c : Completion) : Prop where
  valid : ∀ i ∈ c.cursor, i < c.candidates.length
  isActive_iff : c.isActive ↔ c.candidates ≠ []
  answer?_turn (t : Turn) : c.answer? (.turn t) = (c.act (.turn t)).current?
  answer?_accept : c.answer? .accept = c.current?
  unmoved (typed : String) (candidates : List String) (turns : List Turn)
    (h : firstMove? turns = none) :
    ((c.act (.start typed candidates)).turned turns).answer? .accept = none
  shows_next (typed : String) (candidates : List String) (turns : List Turn)
    (hne : candidates ≠ []) (h : firstMove? turns = some .next) :
    ((c.act (.start typed candidates)).turned turns).Shows candidates
      (turns.count .next - turns.count .previous - 1)
  shows_previous (typed : String) (candidates : List String) (turns : List Turn)
    (hne : candidates ≠ []) (h : firstMove? turns = some .previous) :
    ((c.act (.start typed candidates)).turned turns).Shows candidates
      (turns.count .next - turns.count .previous)
  ended (last : Action) (hlast : last = .accept ∨ last = .cancel) (actions : List Action)
    (h : ∀ action ∈ actions, action.isStart = false) :
    let d := (c.act last).run actions
    d.candidates = [] ∧ d.typed = "" ∧ ∀ t, d.answer? (.turn t) = none
  empty (h : c.candidates = []) : c.isActive = false ∧ ∀ t, c.answer? (.turn t) = none

theorem circles (hvalid : c.Valid) : c.Circles where
  valid := hvalid.cursor_lt
  isActive_iff := hvalid.isActive_iff
  answer?_turn := answer?_turn hvalid
  answer?_accept := rfl
  unmoved typed candidates turns h := by
    rw [turned_of_firstMove?_eq_none h]
    rfl
  shows_next typed candidates turns hne h := by
    have hactive : (c.act (.start typed candidates)).isActive :=
      (valid_act hvalid _).isActive_iff.mpr hne
    have hshows := (at_of_firstMove?_next rfl hactive h).shows
    rw [candidates_turned] at hshows
    exact hshows
  shows_previous typed candidates turns hne h := by
    have hactive : (c.act (.start typed candidates)).isActive :=
      (valid_act hvalid _).isActive_iff.mpr hne
    have hshows := (at_of_firstMove?_previous rfl hactive h).shows
    rw [candidates_turned] at hshows
    exact hshows
  ended last hlast actions h := by
    have hidle : (c.act last).run actions = idle := by
      rcases hlast with rfl | rfl
      · exact run_idle h
      · exact run_idle h
    rw [hidle]
    exact ⟨rfl, rfl, answer?_of_inactive valid_idle rfl⟩
  empty h := by
    have hactive : c.isActive = false := by simp [isActive, h]
    exact ⟨hactive, answer?_of_inactive hvalid hactive⟩

/-- Whatever has been asked before, of completions of whatever texts. -/
theorem candidates_form_circle (actions : List Action) : (idle.run actions).Circles :=
  circles (valid_run valid_idle actions)

/-- Behind the first of two candidates comes the second, however often one looks. -/
example : ((idle.act (.start "s" ["sin", "sqrt"])).turned
    [.current, .next, .next, .current, .next, .previous]).current? = some "sqrt" := rfl

end ReversePolish.Completion
