import Mathlib.Data.List.GetD
import Dcode.Lib.Run

/-!
# Executions of a transition system

An execution is an infinite sequence of states, each of which follows from the one before by a step
or repeats it. What every step keeps holds at every time; what every step of a fair action brings
nearer, by a well-founded measure, happens.
-/

/-- An infinite run of the system with first state `init` and steps `Step`; a state may repeat. -/
structure Execution {S : Type} (init : S) (Step : S → S → Prop) where
  state : Nat → S
  start : state 0 = init
  step : ∀ t, Step (state t) (state (t + 1)) ∨ state (t + 1) = state t

namespace Execution

variable {S : Type} {init : S} {Step : S → S → Prop}

/-- The execution that makes the moves in turn and then rests; a move that is not possible changes nothing. -/
def ofMoves {M : Type} (apply : M → S → S) (hmove : ∀ m s, Step s (apply m s) ∨ apply m s = s) (first : S)
    (moves : List M) : Execution first Step where
  state t := (moves.take t).foldl (fun s m => apply m s) first
  start := rfl
  step t := by
    by_cases ht : t < moves.length
    · rw [List.take_add_one, List.getElem?_eq_getElem ht, List.foldl_append]
      exact hmove _ _
    · right
      rw [List.take_of_length_le (by omega), List.take_of_length_le (by omega)]

/-- What holds up to the last of the moves holds at every time. -/
theorem forall_ofMoves {M : Type} {apply : M → S → S} {hmove : ∀ m s, Step s (apply m s) ∨ apply m s = s} {first : S}
    {moves : List M} {P : S → Prop} (h : ∀ t ≤ moves.length, P ((ofMoves apply hmove first moves).state t)) (t : Nat) :
    P ((ofMoves apply hmove first moves).state t) := by
  by_cases ht : t ≤ moves.length
  · exact h t ht
  · have hend := h _ (Nat.le_refl moves.length)
    simp only [ofMoves, List.take_length] at hend ⊢
    rw [List.take_of_length_le (by omega)]
    exact hend

variable (e : Execution init Step)

/-- What holds at first and is kept by every step holds at every time. -/
theorem invariant {P : S → Prop} (hinit : P init)
    (hstep : ∀ s s', P s → Step s s' → P s') (t : Nat) : P (e.state t) := by
  induction t with
  | zero => rw [e.start]; exact hinit
  | succ t ih =>
    rcases e.step t with h | h
    · exact hstep _ _ ih h
    · rw [h]; exact ih

/-- What every step keeps holds from the first time it holds. -/
theorem persists {P : S → Prop} (hstep : ∀ s s', P s → Step s s' → P s')
    {t u : Nat} (htu : t ≤ u) (ht : P (e.state t)) : P (e.state u) := by
  induction htu with
  | refl => exact ht
  | step _ ih =>
    rcases e.step _ with h | h
    · exact hstep _ _ ih h
    · rw [h]; exact ih

/-- An execution whose states all have a property takes only steps to such states. -/
def restrict {P : S → Prop} (h : ∀ t, P (e.state t)) : Execution init fun s s' => Step s s' ∧ P s' where
  state := e.state
  start := e.start
  step t := (e.step t).imp_left fun hstep => ⟨hstep, h (t + 1)⟩

/-- Whenever the action can be taken, it is taken then or later. -/
def Fair (Act : S → S → Prop) : Prop :=
  ∀ t, (∃ s', Act (e.state t) s') → ∃ u, t ≤ u ∧ Act (e.state u) (e.state (u + 1))

/-- A run whose last move is the action, and after which it can not be taken again, is fair to it. -/
theorem fair_ofMoves {M : Type} {apply : M → S → S} {hmove : ∀ m s, Step s (apply m s) ∨ apply m s = s} {first s : S}
    {moves : List M} {m : M} {Act : S → S → Prop} (hs : moves.foldl (fun s m => apply m s) first = s)
    (hact : Act s (apply m s)) (hlast : ∀ s', ¬ Act (apply m s) s') :
    (ofMoves apply hmove first (moves ++ [m])).Fair Act := by
  have hend : ∀ t, moves.length < t → (ofMoves apply hmove first (moves ++ [m])).state t = apply m s := by
    intro t ht
    simp only [ofMoves]
    rw [List.take_of_length_le (by simp; omega), List.foldl_append, hs]
    rfl
  intro t henabled
  obtain ⟨s', hs'⟩ := henabled
  by_cases ht : t ≤ moves.length
  · refine ⟨moves.length, ht, ?_⟩
    rw [hend _ (Nat.lt_succ_self _)]
    simpa only [ofMoves, List.take_left, hs] using hact
  · rw [hend t (by omega)] at hs'
    exact absurd hs' (hlast s')

/-- Progress: where the goal `Q` is not reached the fair action can be taken, no step increases the
measure and the action decreases it. -/
theorem Fair.eventually {α : Type} [Preorder α] [WellFoundedLT α] {e : Execution init Step}
    {Act : S → S → Prop} (hfair : e.Fair Act) {P Q : S → Prop} (μ : S → α)
    (hkeep : ∀ s s', P s → Step s s' → P s')
    (henabled : ∀ s, P s → ¬ Q s → ∃ s', Act s s')
    (hstep : ∀ s s', P s → ¬ Q s → Step s s' → Q s' ∨ μ s' ≤ μ s)
    (hact : ∀ s s', P s → ¬ Q s → Act s s' → Q s' ∨ μ s' < μ s)
    {t : Nat} (ht : P (e.state t)) : ∃ u, t ≤ u ∧ Q (e.state u) := by
  generalize hm : μ (e.state t) = m
  induction m using WellFoundedLT.induction generalizing t with
  | ind m ih =>
    by_cases hgoal : Q (e.state t)
    · exact ⟨t, Nat.le_refl _, hgoal⟩
    obtain ⟨u, htu, hu⟩ := hfair t (henabled _ ht hgoal)
    -- up to the time of the action either the goal is reached or the measure has not grown
    have hbefore : (∃ v, t ≤ v ∧ Q (e.state v)) ∨ μ (e.state u) ≤ m ∧ ¬ Q (e.state u) := by
      clear hu
      induction htu with
      | refl => exact .inr ⟨le_of_eq hm, hgoal⟩
      | @step u htu ihu =>
        rcases ihu with h | ⟨hle, hng⟩
        · exact .inl h
        · by_cases hg : Q (e.state (u + 1))
          · exact .inl ⟨u + 1, Nat.le_succ_of_le htu, hg⟩
          · refine .inr ⟨?_, hg⟩
            rcases e.step u with h | h
            · rcases hstep _ _ (e.persists hkeep htu ht) hng h with h' | h'
              · exact absurd h' hg
              · exact le_trans h' hle
            · rw [h]; exact hle
    rcases hbefore with h | ⟨hle, hng⟩
    · exact h
    · rcases hact _ _ (e.persists hkeep htu ht) hng hu with h | h
      · exact ⟨u + 1, by omega, h⟩
      · have hPu : P (e.state (u + 1)) := e.persists hkeep (by omega) ht
        obtain ⟨v, huv, hv⟩ := ih _ (lt_of_lt_of_le h hle) hPu rfl
        exact ⟨v, by omega, hv⟩

end Execution

/-! ## Logs of events -/

namespace EventLog

variable {E : Type}

def Precedes (a b : E) (log : List E) : Prop :=
  ∀ before after, log = before ++ b :: after → a ∈ before

theorem Precedes.nil (a b : E) : Precedes a b [] := by
  intro before after h
  simp at h

theorem Precedes.append_of_mem {a b : E} {log : List E} (h : Precedes a b log) (ha : a ∈ log)
    (events : List E) : Precedes a b (log ++ events) := by
  intro before after heq
  rcases Run.append_eq_append_cons heq with ⟨l, rfl, -⟩ | ⟨l, hlog, -⟩
  · exact List.mem_append_left _ ha
  · exact h before l hlog

theorem Precedes.append_of_not_mem {a b : E} {log : List E} (h : Precedes a b log) {events : List E}
    (hb : b ∉ events) : Precedes a b (log ++ events) := by
  intro before after heq
  rcases Run.append_eq_append_cons heq with ⟨l, -, rfl⟩ | ⟨l, hlog, -⟩
  · exact absurd (List.mem_append_right _ List.mem_cons_self) hb
  · exact h before l hlog

end EventLog
