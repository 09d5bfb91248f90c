import Dcode.AppServer.Proofs.BatchProofs

/-!
# One key of the queues

A key is in the map exactly while it has a drain task, spawned or about to be, and it has one at most. Every step keeps
that together with the progress of the batch the task joins, and the discipline follows.
-/

namespace Dcode.AppServer

open List Bool

variable {G : Type}

/-! ## One key -/

def KeyState.current (k : KeyState G) : List (BatchedRequest G) :=
  match k.drains with
  | [.joining batch] => batch
  | _ => []

theorem KeyState.current_eq {k : KeyState G} {batch : List (BatchedRequest G)} (h : k.drains = [.joining batch]) :
    k.current = batch := by
  simp [current, h]

/-- The key is in the map exactly while it has its one drain task. -/
structure KeyState.Inv (accepting : G → Bool) (k : KeyState G) : Prop where
  alive : k.spawning + k.drains.length = k.queue.isSome.toNat
  enqueued_eq : k.enqueued = k.batches.flatten ++ k.queue.getD []
  isBatch : ∀ batch ∈ k.batches, IsBatch batch
  progress : ∃ base next, Progress accepting k.enqueued k.batches k.current k.log base next

namespace KeyState.Inv

variable {accepting : G → Bool} {k k' : KeyState G}

theorem empty (accepting : G → Bool) : Inv accepting ({} : KeyState G) where
  alive := rfl
  enqueued_eq := rfl
  isBatch := by simp
  progress := ⟨0, 0, Progress.nil accepting⟩

section

variable (h : Inv accepting k)

include h

/-- A drain task of a key is its only one, and the key is in the map. -/
theorem alone {before after : List (Drain G)} {d : Drain G} (hdrains : k.drains = before ++ d :: after) :
    before = [] ∧ after = [] ∧ k.spawning = 0 ∧ k.queue.isSome := by
  have halive := h.alive
  have hle := toNat_le k.queue.isSome
  rw [hdrains, length_append, length_cons] at halive
  refine ⟨length_eq_zero_iff.mp (by omega), length_eq_zero_iff.mp (by omega), by omega, ?_⟩
  by_contra hnone
  rw [not_eq_true] at hnone
  rw [hnone] at halive
  simp at halive

theorem present {d : Drain G} (hdrains : k.drains = [d]) : k.spawning = 0 ∧ k.queue.isSome :=
  (h.alone (hdrains.trans (nil_append _).symm)).2.2

theorem enqueue (request : QueuedSerializedRequest G) : Inv accepting (k.enqueue request) := by
  obtain ⟨base, next, hp⟩ := h.progress
  have halive := h.alive
  have henqueued := h.enqueued_eq
  refine ⟨?_, ?_, h.isBatch, base, next, hp.enqueue request⟩
  · cases hqueue : k.queue with
    | none =>
      rw [hqueue, Option.isSome_none, toNat_false] at halive
      simp only [KeyState.enqueue, hqueue, RequestSerializationQueues.enqueue, Option.isSome_some]
      omega
    | some queue =>
      rw [hqueue, Option.isSome_some, toNat_true] at halive
      simp only [KeyState.enqueue, hqueue, RequestSerializationQueues.enqueue, Option.isSome_some, toNat_true,
        toNat_false]
      omega
  · cases hqueue : k.queue with
    | none | some queue =>
      simp [KeyState.enqueue, hqueue, RequestSerializationQueues.enqueue, henqueued]

theorem close [DecidableEq G] (gate : G) : Inv (Function.update accepting gate false) k := by
  obtain ⟨base, next, hp⟩ := h.progress
  exact ⟨h.alive, h.enqueued_eq, h.isBatch, base, next, hp.close gate⟩

theorem spawn {n : Nat} (hspawning : k.spawning = n + 1) :
    Inv accepting { k with spawning := n, drains := .locking :: k.drains } := by
  obtain ⟨base, next, hp⟩ := h.progress
  have halive := h.alive
  have hle := toNat_le k.queue.isSome
  have hdrains : k.drains = [] := length_eq_zero_iff.mp (by omega)
  refine ⟨?_, h.enqueued_eq, h.isBatch, base, next, ?_⟩
  · simp only [length_cons]
    omega
  · simpa [current, hdrains] using hp

theorem lock {before after : List (Drain G)} (hdrains : k.drains = before ++ .locking :: after) :
    Inv accepting (k.drain before after) := by
  obtain ⟨base, next, hp⟩ := h.progress
  obtain ⟨rfl, rfl, hspawning, hsome⟩ := h.alone hdrains
  have henqueued := h.enqueued_eq
  have hcurrent : k.current = [] := by simp [current, hdrains]
  rw [hcurrent] at hp
  cases hdrain : RequestSerializationQueues.drain k.queue with
  | mk left taken =>
    cases taken with
    | none =>
      obtain ⟨rfl, hqueue⟩ := RequestSerializationQueues.drain_none hdrain
      simp only [KeyState.drain, hdrain]
      refine ⟨by simp [hspawning], ?_, h.isBatch, base, next, hp⟩
      rcases hqueue with hqueue | hqueue <;> rw [hqueue] at henqueued <;> exact henqueued
    | some batch =>
      obtain ⟨queue, rfl, hqueue, _, hisBatch⟩ := RequestSerializationQueues.drain_some hdrain
      simp only [KeyState.drain, hdrain]
      have hcut : k.enqueued = (k.batches ++ [batch]).flatten ++ queue := by
        rw [henqueued, hqueue]
        simp
      refine ⟨by simp [hspawning], hcut, ?_, base, next, hp.take ⟨queue, hcut⟩⟩
      intro batch' hbatch'
      rcases mem_append.mp hbatch' with hbatch' | hbatch'
      · exact h.isBatch batch' hbatch'
      · rw [mem_singleton.mp hbatch']
        exact hisBatch

theorem advance {front back : List (BatchedRequest G)} {r : BatchedRequest G}
    (hdrains : k.drains = [.joining (front ++ r :: back)]) (hphase : r.phase ≠ .finished)
    (hfront : r.phase = .ready → ∀ r' ∈ front, r'.phase ≠ .ready) :
    Inv accepting { k with
      drains := [.joining (front ++ { r with phase := (r.advance accepting).1 } :: back)]
      log := k.log ++ (r.advance accepting).2 } := by
  obtain ⟨base, next, hp⟩ := h.progress
  obtain ⟨hspawning, hsome⟩ := h.present hdrains
  rw [current_eq hdrains] at hp
  refine ⟨?_, h.enqueued_eq, h.isBatch, base, _, hp.advance (BatchedRequest.advances hphase accepting) hfront⟩
  simp [hspawning, hsome]

theorem join {batch : List (BatchedRequest G)} (hdrains : k.drains = [.joining batch])
    (hbatch : ∀ r ∈ batch, r.phase = .finished) : Inv accepting { k with drains := [.locking] } := by
  obtain ⟨base, next, hp⟩ := h.progress
  obtain ⟨hspawning, hsome⟩ := h.present hdrains
  rw [current_eq hdrains] at hp
  exact ⟨by simp [hspawning, hsome], h.enqueued_eq, h.isBatch, _, next, hp.join hbatch⟩

theorem drainStep (hstep : DrainStep accepting k k') : Inv accepting k' := by
  cases hstep with
  | spawn hspawning => exact h.spawn hspawning
  | lock hdrains => exact h.lock hdrains
  | advance hdrains hphase hfront =>
    obtain ⟨rfl, rfl, _⟩ := h.alone hdrains
    exact h.advance hdrains hphase hfront
  | join hdrains hbatch =>
    obtain ⟨rfl, rfl, _⟩ := h.alone hdrains
    exact h.join hdrains hbatch

end

/-! What the invariant says. -/

section

variable (h : Inv accepting k)

include h

/-- Without a batch being joined, all that was taken off the queue is finished. -/
theorem finish_of_idle (hcurrent : k.current = []) {i : Nat} (hi : i < k.batches.flatten.length) :
    .finish i ∈ k.log := by
  obtain ⟨base, next, hp⟩ := h.progress
  rw [hcurrent] at hp
  rw [hp.finish_iff, hp.base_eq_of_nil.1]
  exact .inl hi

theorem not_running_of_idle (hcurrent : k.current = []) (i : Nat) : ¬ k.Running i := by
  rintro ⟨hrun, hfinish⟩
  obtain ⟨base, next, hp⟩ := h.progress
  rw [hcurrent] at hp
  obtain ⟨hbase, hnext⟩ := hp.base_eq_of_nil
  have hi := hp.mem_run_iff.mp hrun
  exact hfinish (h.finish_of_idle hcurrent (by omega))

theorem exclusive_alone {i j : Nat} {request : QueuedSerializedRequest G} (hi : k.Running i) (hj : k.Running j)
    (hget : k.enqueued[i]? = some request) (haccess : request.access = .exclusive) : j = i := by
  obtain ⟨base, next, hp⟩ := h.progress
  have hbounds : ∀ n, k.Running n → base ≤ n ∧ n < base + k.current.length := by
    rintro n ⟨hrun, hfinish⟩
    have hlt := hp.mem_run_iff.mp hrun
    have hend := hp.le_end
    by_contra hlt'
    exact hfinish ((hp.finish_iff n).mpr (.inl (by omega)))
  have hbi := hbounds i hi
  have hbj := hbounds j hj
  obtain ⟨r, hr, rfl⟩ := hp.numbered.exists_of_bounds hbi.1 hbi.2
  obtain ⟨front, back, hsplit⟩ := append_of_mem hr
  rw [hsplit] at hp hbi hbj
  rw [hp.getElem?_enqueued] at hget
  obtain rfl := Option.some.inj hget
  -- the batch of an exclusive request has no other
  obtain ⟨before, hbase, ⟨hnil, _⟩ | hlast⟩ := hp.last
  · simp at hnil
  · have hbatch := h.isBatch _ (hlast ▸ mem_append_right _ (mem_singleton.mpr rfl))
    rcases hbatch with ⟨request, hone⟩ | hshared
    · have hlength := congrArg length hone
      rw [length_map, length_singleton] at hlength
      omega
    · have haccess' := hshared r.request (mem_map_of_mem Progress.mem_self)
      rw [haccess] at haccess'
      cases haccess'

theorem discipline : Discipline accepting k := by
  obtain ⟨base, next, hp⟩ := h.progress
  have halive := h.alive
  have hle := toNat_le k.queue.isSome
  have hbase := hp.base_le
  have hend := hp.le_end
  exact
    { one_drain := by omega
      present_iff := by
        rw [halive]
        cases k.queue <;> simp
      enqueued_eq := h.enqueued_eq
      isBatch := h.isBatch
      run_order := ⟨next, hp.runs, by rw [hp.length_flatten]; exact hend⟩
      run_of_finish := by
        intro i hi
        rw [hp.mem_run_iff]
        rcases (hp.finish_iff i).mp hi with hi | ⟨r, hr, rfl, hphase⟩
        · omega
        · by_contra hle
          have hready := (hp.ready_iff r hr).mpr (by omega)
          rw [hphase] at hready
          cases hready
      start_nodup := hp.start_nodup
      start_after_run := hp.start_after_run
      start_or_closed := hp.start_or_closed
      run_after_finish := hp.run_after_finish
      start_after_finish := hp.start_after_finish
      exclusive_alone := fun _ _ _ hi hj hget haccess => h.exclusive_alone hi hj hget haccess }

end

end KeyState.Inv

end Dcode.AppServer
