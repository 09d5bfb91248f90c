import Dcode.Agent.Proofs.ActiveAgentsProofs

/-!
# The registry of agents: what a slot is held by

Whatever is called, there are slots enough for the live agents and the reservations. A slot is lost by a commit that adds
no live agent, and only so.
-/

namespace Dcode.Agent

open AssocCount ActiveAgents SpawnReservation

namespace Slots

def lost (slots : Slots) : Int :=
  slots.registry.totalCount - count AgentMetadata.isLive slots.registry.activeAgents.agentTree - slots.reservations.length

theorem exact_iff (slots : Slots) : slots.Exact ↔ slots.lost = 0 := by
  rw [Exact, length_liveAgents, lost]
  omega

/-- What holds whatever is called: no slot is held twice. -/
structure Sound (slots : Slots) : Prop where
  agents : slots.registry.activeAgents.Sound
  active : ∀ reservation ∈ slots.reservations, reservation.active
  lost_nonneg : 0 ≤ slots.lost

theorem sound_empty : Sound {} where
  agents := ActiveAgents.sound_empty
  active := by simp
  lost_nonneg := by simp [lost, count]

variable {slots : Slots}

theorem Sound.totalCount_nonneg (h : slots.Sound) : 0 ≤ slots.registry.totalCount := by
  have hlost := h.lost_nonneg
  unfold lost at hlost
  omega

structure Keeps (slots after : Slots) : Prop where
  sound : slots.Sound → after.Sound
  inverse : slots.registry.activeAgents.Inverse → after.registry.activeAgents.Inverse
  lost_eq : slots.Sound → after.lost = slots.lost

theorem Keeps.refl (slots : Slots) : slots.Keeps slots := ⟨id, id, fun _ => rfl⟩

theorem Keeps.accounted {after : Slots} (hkeeps : slots.Keeps after) (h : slots.Sound)
    (haccounted : slots.Accounted) : after.Accounted := by
  refine ⟨?_, hkeeps.inverse haccounted.2⟩
  rw [exact_iff, hkeeps.lost_eq h]
  exact (exact_iff slots).mp haccounted.1

variable {reservations : List SpawnReservation} {i : Nat} {reservation : SpawnReservation}

theorem active_set (h : ∀ r ∈ reservations, r.active) (hactive : reservation.active) :
    ∀ r ∈ reservations.set i reservation, r.active := by
  intro r hr
  rcases List.mem_or_eq_of_mem_set hr with hr | rfl
  · exact h r hr
  · exact hactive

theorem active_eraseIdx (h : ∀ r ∈ reservations, r.active) (i : Nat) : ∀ r ∈ reservations.eraseIdx i, r.active :=
  fun r hr => h r (List.mem_of_mem_eraseIdx hr)

theorem length_eraseIdx_of_getElem? (hget : reservations[i]? = some reservation) :
    (reservations.eraseIdx i).length + 1 = reservations.length := by
  obtain ⟨hlt, _⟩ := List.getElem?_eq_some_iff.mp hget
  have hlength := List.length_eraseIdx_of_lt hlt
  omega

theorem keeps_reserveSpawnSlot (maxThreads : Option Nat) : slots.Keeps (slots.step (.reserveSpawnSlot maxThreads)) := by
  cases hreserve : slots.registry.reserveSpawnSlot maxThreads with
  | error e => simp only [step, hreserve]; exact .refl slots
  | ok reserved =>
    have hreserved : reserved =
        ({ active := true }, { slots.registry with totalCount := slots.registry.totalCount + 1 }) := by
      unfold AgentRegistry.reserveSpawnSlot at hreserve
      cases maxThreads with
      | none => exact (Except.ok.inj hreserve).symm
      | some maxThreads =>
        dsimp only at hreserve
        split at hreserve
        · cases hreserve
        · exact (Except.ok.inj hreserve).symm
    subst hreserved
    simp only [step, hreserve]
    have hlost : (⟨{ slots.registry with totalCount := slots.registry.totalCount + 1 },
        slots.reservations ++ [{ active := true }]⟩ : Slots).lost = slots.lost := by
      simp only [lost, List.length_append, List.length_singleton]
      omega
    refine ⟨fun h => ⟨h.agents, fun r hr => ?_, hlost ▸ h.lost_nonneg⟩, id, fun _ => hlost⟩
    rcases List.mem_append.mp hr with hr | hr
    · exact h.active r hr
    · rw [List.mem_singleton.mp hr]

/-- A change of the reserved paths and nicknames only. -/
theorem keeps_of_keepsThreads {agents : ActiveAgents} (hkeeps : slots.registry.activeAgents.KeepsThreads agents)
    (hlength : reservations.length = slots.reservations.length)
    (hactive : slots.Sound → ∀ r ∈ reservations, r.active) :
    slots.Keeps ⟨{ slots.registry with activeAgents := agents }, reservations⟩ := by
  have hlost : (⟨{ slots.registry with activeAgents := agents }, reservations⟩ : Slots).lost = slots.lost := by
    simp [lost, hkeeps.count_eq, hlength]
  exact ⟨fun h => ⟨hkeeps.sound h.agents, hactive h, hlost ▸ h.lost_nonneg⟩, hkeeps.inverse, fun _ => hlost⟩

theorem keeps_reserveAgentNickname (i : Nat) (names : List Str) (preferred : Option Str) (choose : List Str → Option Str) :
    slots.Keeps (slots.step (.reserveAgentNickname i names preferred choose)) := by
  simp only [step, onReservation]
  cases hget : slots.reservations[i]? with
  | none => exact .refl slots
  | some reservation =>
    have hkeeps := slots.registry.activeAgents.keepsThreads_reserveAgentNickname names preferred choose
    simp only [reserveAgentNicknameWithPreference]
    split
    · exact keeps_of_keepsThreads hkeeps List.length_set fun h =>
        active_set h.active (h.active reservation (List.mem_of_getElem? hget))
    · exact keeps_of_keepsThreads hkeeps List.length_set fun h =>
        active_set h.active (h.active reservation (List.mem_of_getElem? hget))

theorem keeps_reserveAgentPath (i : Nat) (agentPath : AgentPath) : slots.Keeps (slots.step (.reserveAgentPath i agentPath)) := by
  simp only [step, onReservation]
  cases hget : slots.reservations[i]? with
  | none => exact .refl slots
  | some reservation =>
    simp only [SpawnReservation.reserveAgentPath]
    cases hreserve : slots.registry.activeAgents.reserveAgentPath agentPath with
    | error e => exact .refl slots
    | ok agents =>
      exact keeps_of_keepsThreads (keepsThreads_reserveAgentPath hreserve) List.length_set fun h =>
        active_set h.active (h.active reservation (List.mem_of_getElem? hget))

theorem keepsThreads_drop (reservation : SpawnReservation) (registry : AgentRegistry) :
    registry.activeAgents.KeepsThreads (reservation.drop registry).activeAgents := by
  unfold drop
  split
  · cases reservation.reservedAgentPath with
    | none => exact .refl _
    | some agentPath => exact keepsThreads_releaseReservedAgentPath agentPath
  · exact .refl _

theorem keeps_drop (i : Nat) : slots.Keeps (slots.step (.drop i)) := by
  simp only [step, onReservation]
  cases hget : slots.reservations[i]? with
  | none => exact .refl slots
  | some reservation =>
    have hkeeps := keepsThreads_drop reservation slots.registry
    have hlength := length_eraseIdx_of_getElem? hget
    have hlost : slots.Sound →
        (⟨reservation.drop slots.registry, slots.reservations.eraseIdx i⟩ : Slots).lost = slots.lost := by
      intro h
      have hactive := h.active reservation (List.mem_of_getElem? hget)
      have htotal : (reservation.drop slots.registry).totalCount = slots.registry.totalCount - 1 := by
        simp [drop, hactive]
      simp only [lost, hkeeps.count_eq]
      omega
    exact ⟨fun h => ⟨hkeeps.sound h.agents, active_eraseIdx h.active i, hlost h ▸ h.lost_nonneg⟩, hkeeps.inverse, hlost⟩

theorem keeps_releaseSpawnedThread (threadId : ThreadId) : slots.Keeps (slots.step (.releaseSpawnedThread threadId)) := by
  have hlost : slots.Sound → (slots.step (.releaseSpawnedThread threadId)).lost = slots.lost := by
    intro h
    have hcount := count_releaseSpawnedThread h.agents threadId
    simp only [step, AgentRegistry.releaseSpawnedThread, lost]
    cases hreleased : (slots.registry.activeAgents.releaseSpawnedThread threadId).2 with
    | true =>
      rw [hreleased, Bool.toNat_true] at hcount
      rw [if_pos rfl]
      omega
    | false =>
      rw [hreleased, Bool.toNat_false] at hcount
      rw [if_neg (by simp)]
      omega
  exact ⟨fun h => ⟨h.agents.releaseSpawnedThread threadId, h.active, hlost h ▸ h.lost_nonneg⟩,
    fun h => h.releaseSpawnedThread threadId, hlost⟩

/-! The two calls that do not always keep the accounts. -/

theorem lost_registerRootThread (threadId : ThreadId) : (slots.step (.registerRootThread threadId)).lost = slots.lost := by
  simp [step, lost, count_registerRootThread]

/-- A commit loses its slot unless it adds a live agent. -/
theorem lost_commit (hget : slots.reservations[i]? = some reservation) (metadata : AgentMetadata) :
    (slots.step (.commit i metadata)).lost + count AgentMetadata.isLive
        (slots.registry.activeAgents.registerSpawnedThread metadata).agentTree =
      slots.lost + (count AgentMetadata.isLive slots.registry.activeAgents.agentTree + 1) := by
  have hlength := length_eraseIdx_of_getElem? hget
  simp only [step, onReservation, hget, commit, drop, lost]
  simp only [Bool.false_eq_true, if_false]
  omega

theorem step_cases (slots : Slots) (call : Call) : slots.Keeps (slots.step call) ∧ slots.Clean call ∨
    (∃ threadId, call = .registerRootThread threadId) ∨
      ∃ i metadata reservation, call = .commit i metadata ∧ slots.reservations[i]? = some reservation := by
  cases call with
  | reserveSpawnSlot maxThreads => exact .inl ⟨keeps_reserveSpawnSlot maxThreads, trivial⟩
  | reserveAgentNickname i names preferred choose =>
    exact .inl ⟨keeps_reserveAgentNickname i names preferred choose, trivial⟩
  | reserveAgentPath i agentPath => exact .inl ⟨keeps_reserveAgentPath i agentPath, trivial⟩
  | drop i => exact .inl ⟨keeps_drop i, trivial⟩
  | releaseSpawnedThread threadId => exact .inl ⟨keeps_releaseSpawnedThread threadId, trivial⟩
  | registerRootThread threadId => exact .inr (.inl ⟨threadId, rfl⟩)
  | commit i metadata =>
    cases hget : slots.reservations[i]? with
    | none =>
      have hle := List.getElem?_eq_none_iff.mp hget
      refine .inl ⟨?_, fun hlt => absurd hlt (by omega)⟩
      simp only [step, onReservation, hget]
      exact .refl slots
    | some reservation => exact .inr (.inr ⟨i, metadata, reservation, rfl, hget⟩)

theorem Sound.step (h : slots.Sound) (call : Call) : (slots.step call).Sound := by
  rcases slots.step_cases call with ⟨hkeeps, _⟩ | ⟨threadId, rfl⟩ | ⟨i, metadata, reservation, rfl, hget⟩
  · exact hkeeps.sound h
  · refine ⟨h.agents.registerRootThread threadId, h.active, ?_⟩
    rw [lost_registerRootThread]
    exact h.lost_nonneg
  · have hlost := lost_commit hget metadata
    have hadded := slots.registry.activeAgents.count_registerSpawnedThread_le metadata
    have hnonneg := h.lost_nonneg
    have hlost' : 0 ≤ (slots.step (.commit i metadata)).lost := by omega
    simp only [Slots.step, onReservation, hget] at hlost' ⊢
    exact ⟨h.agents.registerSpawnedThread metadata, active_eraseIdx h.active i, hlost'⟩

/-- The accounts stay exact and the maps inverse exactly if the call is clean. -/
theorem Sound.accounted_step_iff (h : slots.Sound) (haccounted : slots.Accounted) (call : Call) :
    (slots.step call).Accounted ↔ slots.Clean call := by
  have hzero := (exact_iff slots).mp haccounted.1
  rcases slots.step_cases call with ⟨hkeeps, hclean⟩ | ⟨threadId, rfl⟩ | ⟨i, metadata, reservation, rfl, hget⟩
  · exact iff_of_true (hkeeps.accounted h haccounted) hclean
  · have hexact : (slots.step (.registerRootThread threadId)).Exact := by
      rw [exact_iff, lost_registerRootThread]
      exact hzero
    rw [Accounted, and_iff_right hexact]
    exact inverse_registerRootThread_iff haccounted.2 threadId
  · have hlt := (List.getElem?_eq_some_iff.mp hget).1
    have hlost := lost_commit hget metadata
    have hinverse : (slots.step (.commit i metadata)).registry.activeAgents.Inverse := by
      simp only [Slots.step, onReservation, hget]
      exact haccounted.2.registerSpawnedThread metadata
    rw [Accounted, and_iff_left hinverse, exact_iff]
    constructor
    · intro hexact _
      exact (count_registerSpawnedThread_iff h.agents).mp (by omega)
    · intro hclean
      have hadded := (count_registerSpawnedThread_iff h.agents).mpr (hclean hlt)
      omega

theorem run_concat (calls : List Call) (call : Call) : run (calls ++ [call]) = (run calls).step call := by
  simp [run]

theorem sound_run (calls : List Call) : (run calls).Sound := by
  induction calls using List.reverseRecOn with
  | nil => exact sound_empty
  | append_singleton calls call ih =>
    rw [run_concat]
    exact ih.step call

/-- Whatever is called, no two threads have the same path. -/
theorem run_threadPaths_subsingleton (calls : List Call) (key : Str) :
    {threadId | (run calls).registry.activeAgents.threadPaths.lookup threadId = some key}.Subsingleton := by
  intro threadId h threadId' h'
  have howned := (ActiveAgents.sound_iff.mp (sound_run calls).agents).1
  exact Option.some.inj ((howned threadId key h).symm.trans (howned threadId' key h'))

theorem accounted_empty : Accounted {} := by
  refine ⟨rfl, fun threadId key => ?_⟩
  simp

/-- In every sequence of calls the counter does not fall below zero, and the slots are accounted for at all times exactly if
every commit is of a new thread at a free key, and the root is given no thread with another key. -/
theorem agentSlots_accounted_iff (calls : List Call) : (∀ n, 0 ≤ (run (calls.take n)).registry.totalCount) ∧
    ((∀ n, (run (calls.take n)).Accounted) ↔ ∀ n call, calls[n]? = some call → (run (calls.take n)).Clean call) := by
  refine ⟨fun n => (sound_run _).totalCount_nonneg, ?_, ?_⟩
  · intro haccounted n call hget
    have hnext := haccounted (n + 1)
    rw [List.take_add_one, hget, Option.toList_some, run_concat] at hnext
    exact ((sound_run _).accounted_step_iff (haccounted n) call).mp hnext
  · intro hclean n
    induction n with
    | zero => exact accounted_empty
    | succ n ih =>
      rw [List.take_add_one]
      cases hget : calls[n]? with
      | none => simpa using ih
      | some call =>
        rw [Option.toList_some, run_concat]
        exact ((sound_run _).accounted_step_iff ih call).mpr (hclean n call hget)

/-! Three commits that lose their slot, and a root that parts the maps. -/

def commitWithoutThread : List Call := [.reserveSpawnSlot none, .commit 0 {}]

def commitAgain : List Call :=
  [.reserveSpawnSlot none, .commit 0 { agentId := some ['t'] }, .reserveSpawnSlot none, .commit 0 { agentId := some ['t'] }]

def childPath : AgentPath := ⟨"/root/a".toList, by decide +kernel⟩

def commitAtTakenPath : List Call :=
  [.reserveSpawnSlot none, .commit 0 { agentId := some ['t'], agentPath := some childPath },
    .reserveSpawnSlot none, .commit 0 { agentId := some ['u'], agentPath := some childPath }]

def rootOfSpawned : List Call :=
  [.reserveSpawnSlot none, .commit 0 { agentId := some ['t'] }, .registerRootThread ['t']]

theorem agentSlots_not_accounted :
    ¬ (run commitWithoutThread).Exact ∧ ¬ (run commitAgain).Exact ∧ ¬ (run commitAtTakenPath).Exact ∧
      ¬ (run rootOfSpawned).registry.activeAgents.Inverse := by
  refine ⟨?_, ?_, ?_, fun hinverse => ?_⟩
  · unfold Exact
    decide +kernel
  · unfold Exact
    decide +kernel
  · unfold Exact
    decide +kernel
  · have hlookup := (hinverse ['t'] "thread:t".toList).mpr ⟨{ agentId := some ['t'] }, by decide +kernel, rfl⟩
    exact absurd hlookup (by decide +kernel)

end Slots

end Dcode.Agent
