import Dcode.Agent.Execution

/-!
# Guards beyond the limit

A check that is passed reserves nothing: until the turn has its guard, others may pass on the same room. If only one turn is
on its way at a time, the guards stay within the limit.
-/

namespace Dcode.Agent.Executions

open Finset AgentExecutionLimiter

def Step.IsCheck : Step → Prop
  | .send _ _ | .spawn _ => True
  | _ => False

/-- Whenever a check is made, nothing that was let through waits and every active turn has its guard. -/
def ChecksAlone : List Step → Executions → Prop
  | [], _ => True
  | step :: steps, s => (step.IsCheck → s.waiting = [] ∧ s.turns ⊆ s.guards) ∧ ChecksAlone steps (s.step step)

structure Within (max : Nat) (s : Executions) : Prop where
  max_eq : s.limiter.maxThreads = max
  active : s.limiter.active = s.guards.card
  guards_subset : s.guards ⊆ s.turns
  waiting : s.waiting.length ≤ 1
  room : s.turns.card + (s.waiting.filter (· ∉ s.turns)).length ≤ max

variable {max : Nat} {s : Executions}

theorem Within.admit (h : Within max s) (hwaiting : s.waiting = []) (hguards : s.turns ⊆ s.guards) {thread : ThreadId}
    (hpass : thread ∈ s.turns ∨ s.limiter.ensureExecutionCapacity = .ok ()) :
    Within max { s with waiting := s.waiting ++ [thread] } := by
  have hroom := h.room
  rw [hwaiting] at hroom ⊢
  refine ⟨h.max_eq, h.active, h.guards_subset, Nat.le_refl 1, ?_⟩
  by_cases hmem : thread ∈ s.turns
  · simpa [hmem] using hroom
  · have hfree : s.limiter.active < s.limiter.maxThreads := by
      by_contra hfull
      simp [hmem, ensureExecutionCapacity, hasCapacity, hfull] at hpass
    have hle := card_le_card hguards
    rw [h.active, h.max_eq] at hfree
    simp [hmem]
    omega

theorem Within.step (h : Within max s) {step : Step} (halone : step.IsCheck → s.waiting = [] ∧ s.turns ⊆ s.guards) :
    Within max (s.step step) := by
  have hroom := h.room
  cases step with
  | send thread startsTurn =>
    obtain ⟨hwaiting, hguards⟩ := halone trivial
    simp only [Executions.step]
    split
    next hok =>
      split
      next hstarts =>
        refine h.admit hwaiting hguards ?_
        simp only [ensureExecutionCapacityForTurnStart, hstarts, Bool.not_true, Bool.false_eq_true, if_false] at hok
        split at hok
        next hmem => exact .inl hmem
        next => exact .inr hok
      next => exact h
    next => exact h
  | spawn thread =>
    obtain ⟨hwaiting, hguards⟩ := halone trivial
    simp only [Executions.step]
    split
    next hok => exact h.admit hwaiting hguards (.inr hok)
    next => exact h
  | deliver i =>
    simp only [Executions.step]
    split
    next => exact h
    next thread hget =>
      -- what is delivered is all that waits
      have hlen := h.waiting
      obtain ⟨hone, rfl⟩ : s.waiting = [thread] ∧ i = 0 := by
        rcases hw : s.waiting with _ | ⟨t, _ | ⟨t', rest⟩⟩ <;> cases i <;> simp_all
      rw [hone] at hroom ⊢
      refine ⟨h.max_eq, h.active, h.guards_subset.trans (subset_insert _ _), by simp, ?_⟩
      by_cases hmem : thread ∈ s.turns <;> simpa [hmem] using hroom
  | takeGuard thread =>
    simp only [Executions.step]
    split
    next hnew =>
      refine ⟨h.max_eq, ?_, insert_subset hnew.1 h.guards_subset, h.waiting, hroom⟩
      rw [card_insert_of_notMem hnew.2, h.active]
    next => exact h
  | endTurn thread =>
    refine ⟨h.max_eq, ?_, erase_subset_erase _ h.guards_subset, h.waiting, ?_⟩
    · show s.limiter.active - (if thread ∈ s.guards then 1 else 0) = (s.guards.erase thread).card
      rw [h.active, card_erase_eq_ite]
      split <;> rfl
    · show (s.turns.erase thread).card + (s.waiting.filter (· ∉ s.turns.erase thread)).length ≤ max
      by_cases hmem : thread ∈ s.turns
      · -- the turn makes room for the one that may wait for its thread
        have hle := (List.length_filter_le (· ∉ s.turns.erase thread) s.waiting).trans h.waiting
        have hless := card_erase_add_one hmem
        omega
      · rwa [erase_eq_of_notMem hmem]

theorem Within.run (h : Within max s) {steps : List Step} (halone : ChecksAlone steps s) : Within max (s.run steps) := by
  induction steps generalizing s with
  | nil => exact h
  | cons step steps ih => exact ih (h.step halone.1) halone.2

end Dcode.Agent.Executions
