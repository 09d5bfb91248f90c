import Dcode.Agent.Registry

/-!
# Resident sub-agents

`codex-rs/core/src/agent/control/residency.rs`: the V2 sub-agents that are loaded, the least recently used first, and the
slots reserved for those that are being loaded. Where there is no room, a scan takes one resident after the other out of the
list, checks it without the lock, and unloads it or puts it back.
-/

namespace Dcode.Agent

def touchResident (residents : List ThreadId) (threadId : ThreadId) : List ThreadId :=
  residents.filter (· ≠ threadId) ++ [threadId]

/-- The loop of `pop_lru_candidate`, with the rounds that are left. -/
def popFrom (protectedThreadId : Option ThreadId) : Nat → List ThreadId → Option ThreadId × List ThreadId
  | 0, residents => (none, residents)
  | _ + 1, [] => (none, [])
  | rounds + 1, candidate :: residents =>
    if some candidate = protectedThreadId then popFrom protectedThreadId rounds (residents ++ [candidate])
    else (some candidate, residents)

theorem nodup_touchResident {residents : List ThreadId} (h : residents.Nodup) (threadId : ThreadId) :
    (touchResident residents threadId).Nodup := by
  refine List.nodup_append.mpr ⟨h.filter _, List.nodup_singleton _, ?_⟩
  simp

theorem popFrom_perm (protectedThreadId : Option ThreadId) (rounds : Nat) (residents : List ThreadId) :
    ((popFrom protectedThreadId rounds residents).1.toList ++ (popFrom protectedThreadId rounds residents).2).Perm
      residents := by
  induction rounds generalizing residents with
  | zero => exact .refl _
  | succ rounds ih =>
    cases residents with
    | nil => exact .refl _
    | cons candidate residents =>
      rw [popFrom]
      split
      · exact (ih _).trans (List.perm_append_singleton _ _)
      · exact .refl _

/-- `V2ResidencyState`. No thread is listed twice: it is taken out before it is added. -/
structure V2ResidencyState where
  residents : List ThreadId := []
  pendingSlots : Nat := 0
  nodup : residents.Nodup := by simp

namespace V2ResidencyState

variable (self : V2ResidencyState)

def tryReservePendingSlot (capacity : Nat) : Bool × V2ResidencyState :=
  if self.residents.length + self.pendingSlots ≥ capacity then (false, self)
  else (true, { self with pendingSlots := self.pendingSlots + 1 })

def popLruCandidate (protectedThreadId : Option ThreadId) : Option ThreadId × V2ResidencyState :=
  ((popFrom protectedThreadId self.residents.length self.residents).1,
    { self with
      residents := (popFrom protectedThreadId self.residents.length self.residents).2
      nodup := ((popFrom_perm ..).nodup_iff.mpr self.nodup).of_append_right })

def touch (threadId : ThreadId) : V2ResidencyState :=
  { self with residents := touchResident self.residents threadId, nodup := nodup_touchResident self.nodup threadId }

def remove (threadId : ThreadId) : V2ResidencyState :=
  { self with residents := self.residents.filter (· ≠ threadId), nodup := self.nodup.filter _ }

def releasePendingSlot : V2ResidencyState := { self with pendingSlots := self.pendingSlots - 1 }

def commitSlot (threadId : ThreadId) : V2ResidencyState := self.releasePendingSlot.touch threadId

end V2ResidencyState

/-! ## Interleavings -/

/-- The residents, and the candidates that scans have taken out and not decided about. -/
structure Residency where
  state : V2ResidencyState := {}
  held : List ThreadId := []

namespace Residency

inductive Step where
  | reserve
  | commit (threadId : ThreadId)
  | drop
  | pop (protectedThreadId : Option ThreadId)
  | putBack (threadId : ThreadId)
  | discard (threadId : ThreadId)
  | touch (threadId : ThreadId)
  | forget (threadId : ThreadId)

/-- A slot is committed by a task that has one, and a thread is touched that has its place among the residents, also while a
scan holds it. -/
def step (capacity : Nat) (self : Residency) : Step → Residency
  | .reserve => { self with state := (self.state.tryReservePendingSlot capacity).2 }
  | .commit threadId =>
    if self.state.pendingSlots = 0 then self else { self with state := self.state.commitSlot threadId }
  | .drop => { self with state := self.state.releasePendingSlot }
  | .pop protectedThreadId =>
    { state := (self.state.popLruCandidate protectedThreadId).2
      held := (self.state.popLruCandidate protectedThreadId).1.toList ++ self.held }
  | .putBack threadId =>
    if threadId ∈ self.held then { state := self.state.touch threadId, held := self.held.erase threadId } else self
  | .discard threadId => { self with held := self.held.erase threadId }
  | .touch threadId =>
    if threadId ∈ self.state.residents ++ self.held then { self with state := self.state.touch threadId } else self
  | .forget threadId => { self with state := self.state.remove threadId }

def run (capacity : Nat) (self : Residency) (steps : List Step) : Residency := steps.foldl (step capacity) self

end Residency

end Dcode.Agent
