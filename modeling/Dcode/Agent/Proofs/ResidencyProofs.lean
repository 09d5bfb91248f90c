import Dcode.Agent.Residency

/-!
# Residents and slots

While a scan holds a candidate, its room counts as free. If nobody reserves then, the residents, the candidates that are
held and the slots are together within the capacity.
-/

namespace Dcode.Agent.Residency

open List V2ResidencyState

/-- Whenever a slot is reserved, no scan holds a candidate. -/
def ReservesAlone (capacity : Nat) : List Step → Residency → Prop
  | [], _ => True
  | step :: steps, s => (step = .reserve → s.held = []) ∧ ReservesAlone capacity steps (s.step capacity step)

def Within (capacity : Nat) (s : Residency) : Prop :=
  (s.state.residents ++ s.held).toFinset.card + s.state.pendingSlots ≤ capacity

variable {capacity : Nat} {s t : Residency}

theorem mem_touchResident {residents : List ThreadId} {threadId id : ThreadId} :
    id ∈ touchResident residents threadId ↔ id ∈ residents ∨ id = threadId := by
  by_cases hid : id = threadId <;> simp [touchResident, hid]

theorem Within.of_subset (h : Within capacity s) (added : List ThreadId) (hsub : ∀ id,
      id ∈ t.state.residents ∨ id ∈ t.held → id ∈ added ∨ id ∈ s.state.residents ∨ id ∈ s.held)
    (hpending : t.state.pendingSlots + added.length ≤ s.state.pendingSlots) : Within capacity t := by
  have hmono : (t.state.residents ++ t.held).toFinset ⊆ added.toFinset ∪ (s.state.residents ++ s.held).toFinset := by
    intro id hid
    simpa using hsub id (by simpa using hid)
  have hcard := (Finset.card_le_card hmono).trans (Finset.card_union_le ..)
  have hadded := toFinset_card_le added
  unfold Within at h ⊢
  omega

theorem Within.step (h : Within capacity s) {step : Step} (halone : step = .reserve → s.held = []) :
    Within capacity (s.step capacity step) := by
  cases step with
  | reserve =>
    have hcard := toFinset_card_le s.state.residents
    simp only [Residency.step, tryReservePendingSlot]
    split
    · exact h
    · simp only [Within, halone rfl, append_nil]
      omega
  | commit threadId =>
    rw [Residency.step]
    split
    · exact h
    next hslot =>
      refine h.of_subset [threadId] (fun id hid => ?_) (Nat.sub_add_cancel (Nat.pos_of_ne_zero hslot)).le
      rw [commitSlot, touch, mem_touchResident] at hid
      rw [mem_singleton]
      tauto
  | drop => exact h.of_subset [] (fun _ => .inr) (Nat.sub_le ..)
  | pop protectedThreadId =>
    refine h.of_subset [] (fun id hid => .inr ?_) (Nat.le_refl _)
    have hmem := (popFrom_perm protectedThreadId s.state.residents.length s.state.residents).mem_iff (a := id)
    simp only [Residency.step, popLruCandidate, mem_append] at hid hmem
    tauto
  | putBack threadId =>
    rw [Residency.step]
    split
    next hheld =>
      refine h.of_subset [] (fun id hid => .inr ?_) (Nat.le_refl _)
      rcases hid.imp_left mem_touchResident.mp with (hid | rfl) | hid
      · exact .inl hid
      · exact .inr hheld
      · exact .inr (mem_of_mem_erase hid)
    · exact h
  | discard threadId =>
    exact h.of_subset [] (fun id hid => .inr (hid.imp_right mem_of_mem_erase)) (Nat.le_refl _)
  | touch threadId =>
    rw [Residency.step]
    split
    next hplace =>
      refine h.of_subset [] (fun id hid => .inr ?_) (Nat.le_refl _)
      rcases hid.imp_left mem_touchResident.mp with (hid | rfl) | hid
      · exact .inl hid
      · exact mem_append.mp hplace
      · exact .inr hid
    · exact h
  | forget threadId =>
    exact h.of_subset [] (fun id hid => .inr (hid.imp_left mem_of_mem_filter)) (Nat.le_refl _)

theorem Within.run (h : Within capacity s) {steps : List Step} (halone : ReservesAlone capacity steps s) :
    Within capacity (s.run capacity steps) := by
  induction steps generalizing s with
  | nil => exact h
  | cons step steps ih => exact ih (h.step halone.1) halone.2

/-- The residents and the slots stay within the capacity if nobody reserves a slot while a scan holds a candidate. -/
theorem run_residents_le {capacity : Nat} {steps : List Step} (halone : ReservesAlone capacity steps {}) :
    (run capacity {} steps).state.residents.length + (run capacity {} steps).state.pendingSlots ≤ capacity := by
  have hstart : Within capacity {} := Nat.zero_le _
  have hwithin := hstart.run halone
  have hsub : (run capacity {} steps).state.residents.toFinset ⊆
      ((run capacity {} steps).state.residents ++ (run capacity {} steps).held).toFinset := by
    rw [toFinset_append]
    exact Finset.subset_union_left
  have hcard := Finset.card_le_card hsub
  rw [toFinset_card_of_nodup (run capacity {} steps).state.nodup] at hcard
  unfold Within at hwithin
  omega

theorem run_residents_le_two :
    (run 2 {} [.reserve, .commit ['a'], .pop none, .putBack ['a'], .reserve]).state.residents.length +
      (run 2 {} [.reserve, .commit ['a'], .pop none, .putBack ['a'], .reserve]).state.pendingSlots ≤ 2 :=
  run_residents_le ⟨fun _ => rfl, nofun, nofun, nofun, fun _ => rfl, trivial⟩

/-- A slot is reserved while a scan holds the only resident, which is then put back. -/
theorem run_residents_exceed :
    (run 1 {} [.reserve, .commit ['a'], .pop none, .reserve, .putBack ['a']]).state.residents.length +
      (run 1 {} [.reserve, .commit ['a'], .pop none, .reserve, .putBack ['a']]).state.pendingSlots = 2 := by
  decide

end Dcode.Agent.Residency
