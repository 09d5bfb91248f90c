import Dcode.AppServer.Proofs.KeyProofs

/-!
# Serialized requests: the discipline, and that every request is served

The invariant of the keys holds along every run. A request that was enqueued comes nearer to its end with every step of
its key, and there is such a step until it has finished.
-/

namespace Dcode.AppServer

open List RequestSerializationQueues Function KeyState

variable {K G : Type}

/-! ## Every request is served -/

def Phase.left : Phase → Nat
  | .ready => 3
  | .entering => 2
  | .running => 1
  | .finished => 0

def Drain.left : Drain G → Nat
  | .locking => 0
  | .joining batch => (batch.map (·.phase.left)).sum + 1

def KeyState.left (k : KeyState G) (i : Nat) : Nat ×ₗ Nat :=
  toLex (i + 1 - k.batches.flatten.length, k.spawning + (k.drains.map Drain.left).sum)

theorem Advances.left_lt {accepting : G → Bool} {r : BatchedRequest G} {phase : Phase} {events : List Event}
    (h : Advances accepting r phase events) : phase.left < r.phase.left := by
  cases h <;> rename_i hphase <;> simp_all [Phase.left]

def KeyState.Pending (k : KeyState G) (i : Nat) : Prop := i < k.enqueued.length ∧ .finish i ∉ k.log

namespace KeyState.Inv

variable {accepting : G → Bool} {k k' : KeyState G} {i : Nat}

section

variable (h : Inv accepting k)

include h

/-- A request that is not finished and not in a batch is queued. -/
theorem queued_of_idle (hpending : k.Pending i) (hcurrent : k.current = []) :
    k.batches.flatten.length ≤ i ∧ ∃ request queue, k.queue = some (request :: queue) := by
  have hle : k.batches.flatten.length ≤ i := by
    by_contra hlt
    exact hpending.2 (h.finish_of_idle hcurrent (by omega))
  refine ⟨hle, ?_⟩
  have hlength := congrArg length h.enqueued_eq
  rw [length_append] at hlength
  have hlt := hpending.1
  cases hqueue : k.queue with
  | none => rw [hqueue, Option.getD_none, length_nil] at hlength; omega
  | some queue =>
    cases queue with
    | nil => rw [hqueue, Option.getD_some, length_nil] at hlength; omega
    | cons request queue => exact ⟨request, queue, rfl⟩

theorem isSome_of_pending (hpending : k.Pending i) : k.queue.isSome := by
  by_contra hnone
  have halive := h.alive
  rw [Bool.not_eq_true] at hnone
  rw [hnone, Bool.toNat_false] at halive
  have hdrains : k.drains = [] := length_eq_zero_iff.mp (by omega)
  obtain ⟨_, request, queue, hqueue⟩ := h.queued_of_idle hpending (by simp [current, hdrains])
  rw [hqueue] at hnone
  cases hnone

theorem left_enqueue (hpending : k.Pending i) (request : QueuedSerializedRequest G) :
    (k.enqueue request).left i = k.left i := by
  obtain ⟨queue, hqueue⟩ := Option.isSome_iff_exists.mp (h.isSome_of_pending hpending)
  simp [KeyState.left, KeyState.enqueue, hqueue, RequestSerializationQueues.enqueue]

theorem left_drainStep (hpending : k.Pending i) (hstep : DrainStep accepting k k') : k'.left i < k.left i := by
  unfold left
  rw [Prod.Lex.toLex_lt_toLex]
  cases hstep with
  | spawn hspawning =>
    right
    refine ⟨rfl, ?_⟩
    simp only [map_cons, sum_cons, Drain.left]
    omega
  | lock hdrains =>
    obtain ⟨rfl, rfl, _⟩ := h.alone hdrains
    obtain ⟨hle, request, queue, hqueue⟩ := h.queued_of_idle hpending (by simp [current, hdrains])
    cases hdrain : RequestSerializationQueues.drain k.queue with
    | mk entry taken =>
      cases taken with
      | none =>
        have hnone := drain_none hdrain
        rw [hqueue] at hnone
        simp at hnone
      | some batch =>
        obtain ⟨_, _, _, hne, _⟩ := drain_some hdrain
        have hpos := length_pos_iff.mpr hne
        simp only [drain, hdrain, flatten_append, length_append, flatten_singleton]
        omega
  | advance hdrains hphase hfront =>
    right
    refine ⟨rfl, ?_⟩
    have hlt := (BatchedRequest.advances hphase accepting).left_lt
    simp only [hdrains, map_append, map_cons, sum_append, sum_cons, Drain.left]
    omega
  | join hdrains hbatch =>
    right
    refine ⟨rfl, ?_⟩
    simp only [hdrains, map_append, map_cons, sum_append, sum_cons, Drain.left]
    omega

theorem exists_drainStep (hpending : k.Pending i) : ∃ k', DrainStep accepting k k' := by
  have halive := h.alive
  rw [h.isSome_of_pending hpending, Bool.toNat_true] at halive
  cases hspawning : k.spawning with
  | succ n => exact ⟨_, .spawn hspawning⟩
  | zero =>
    obtain ⟨d, hdrains⟩ := length_eq_one_iff.mp (show k.drains.length = 1 by omega)
    rw [← nil_append [d]] at hdrains
    cases d with
    | locking => exact ⟨_, .lock hdrains⟩
    | joining batch =>
      by_cases hall : ∀ r ∈ batch, r.phase = .finished
      · exact ⟨_, .join hdrains hall⟩
      · -- the first that is not finished can go on
        have hsome : (batch.find? fun r => r.phase != .finished).isSome := by
          rw [find?_isSome]
          push Not at hall
          obtain ⟨r, hr, hphase⟩ := hall
          exact ⟨r, hr, bne_iff_ne.mpr hphase⟩
        obtain ⟨r, hfind⟩ := Option.isSome_iff_exists.mp hsome
        obtain ⟨hphase, front, back, rfl, hfront⟩ := find?_eq_some_iff_append.mp hfind
        refine ⟨_, .advance hdrains (bne_iff_ne.mp hphase) fun _ r' hr' hready => ?_⟩
        have hfinished := hfront r' hr'
        rw [hready] at hfinished
        cases hfinished

end

end KeyState.Inv

/-! ## The system -/

theorem DrainStep.enqueued_eq {accepting : G → Bool} {k k' : KeyState G} (h : DrainStep accepting k k') :
    k'.enqueued = k.enqueued := by
  cases h with
  | spawn => rfl
  | lock => unfold KeyState.drain; split <;> rfl
  | advance | join => rfl

def State.Inv (s : State K G) : Prop := ∀ key, (s.keys key).Inv s.accepting

theorem State.inv_init : (State.init K G).Inv := fun _ => Inv.empty _

variable [DecidableEq K] {s : State K G} {key : K}

theorem State.Inv.update (h : s.Inv) {k : KeyState G} (hk : k.Inv s.accepting) :
    State.Inv { s with keys := update s.keys key k } := by
  intro key'
  by_cases heq : key' = key
  · rw [heq]
    simpa using hk
  · simpa [update_of_ne heq] using h key'

variable [DecidableEq G] {s' : State K G}

theorem State.Inv.step (h : s.Inv) (hstep : Step s s') : s'.Inv := by
  cases hstep with
  | enqueue key request => exact h.update ((h key).enqueue request)
  | drain key hdrain =>
    obtain ⟨k, hk, rfl⟩ := hdrain
    exact h.update ((h key).drainStep hk)
  | close gate => exact fun key => (h key).close gate

theorem Serving.inv (e : Serving K G) (t : Nat) : (e.state t).Inv :=
  e.invariant State.inv_init (fun _ _ h hstep => h.step hstep) t

/-- What a step does to a key: nothing, one more request, or a step of its drain task. -/
theorem Step.key_cases (hstep : Step s s') (key : K) :
    s'.keys key = s.keys key ∨ (∃ request, s'.keys key = (s.keys key).enqueue request) ∨
      DrainStep s.accepting (s.keys key) (s'.keys key) := by
  cases hstep with
  | enqueue key' request =>
    by_cases heq : key = key'
    · subst heq
      exact .inr (.inl ⟨request, update_self _ _ _⟩)
    · exact .inl (update_of_ne heq _ _)
  | drain key' hdrain =>
    obtain ⟨k, hk, rfl⟩ := hdrain
    by_cases heq : key = key'
    · subst heq
      exact .inr (.inr (by simpa using hk))
    · exact .inl (update_of_ne heq _ _)
  | close gate => exact .inl rfl

theorem Step.enqueued_length_le (hstep : Step s s') (key : K) :
    (s.keys key).enqueued.length ≤ (s'.keys key).enqueued.length := by
  rcases hstep.key_cases key with h | ⟨request, h⟩ | h
  · rw [h]
  · rw [h]
    simp [KeyState.enqueue]
  · rw [h.enqueued_eq]

/-- Only a drain task that finds its queue empty takes a key out of the map. -/
theorem Step.removed (hinv : s.Inv) (hstep : Step s s') (hbefore : (s.keys key).queue.isSome)
    (hafter : (s'.keys key).queue = none) :
    (s.keys key).queue = some [] ∧ ∀ i, ¬ (s.keys key).Running i := by
  rcases hstep.key_cases key with h | ⟨request, h⟩ | h
  · rw [← h, hafter] at hbefore
    cases hbefore
  · rw [h] at hafter
    cases hqueue : (s.keys key).queue <;> simp [KeyState.enqueue, RequestSerializationQueues.enqueue, hqueue] at hafter
  · generalize s'.keys key = k' at h hafter
    have hk := hinv key
    generalize s.keys key = k at h hk hbefore
    cases h with
    | spawn | advance | join => rw [hafter] at hbefore; cases hbefore
    | lock hdrains =>
      obtain ⟨rfl, rfl, _⟩ := hk.alone hdrains
      refine ⟨?_, hk.not_running_of_idle (by simp [KeyState.current, hdrains])⟩
      cases hdrain : RequestSerializationQueues.drain k.queue with
      | mk left taken =>
        cases taken with
        | none =>
          rcases (drain_none hdrain).2 with hqueue | hqueue
          · rw [hqueue] at hbefore
            cases hbefore
          · exact hqueue
        | some batch =>
          obtain ⟨queue, rfl, _⟩ := drain_some hdrain
          simp [KeyState.drain, hdrain] at hafter

/-- While its drain task is given its turns, every request of a key finishes. -/
theorem Serving.eventually_finish (e : Serving K G) (hfair : e.Fair (DrainsKey key)) {t i : Nat}
    (hi : i < ((e.state t).keys key).enqueued.length) : ∃ u, t ≤ u ∧ .finish i ∈ ((e.state u).keys key).log := by
  refine hfair.eventually (P := fun s => s.Inv ∧ i < (s.keys key).enqueued.length)
    (Q := fun s => .finish i ∈ (s.keys key).log) (fun s => (s.keys key).left i) ?_ ?_ ?_ ?_ ⟨e.inv t, hi⟩
  · rintro s s' ⟨hinv, hlt⟩ hstep
    exact ⟨hinv.step hstep, Nat.lt_of_lt_of_le hlt (hstep.enqueued_length_le key)⟩
  · rintro s ⟨hinv, hlt⟩ hgoal
    obtain ⟨k, hk⟩ := (hinv key).exists_drainStep ⟨hlt, hgoal⟩
    exact ⟨_, k, hk, rfl⟩
  · rintro s s' ⟨hinv, hlt⟩ hgoal hstep
    right
    rcases hstep.key_cases key with h | ⟨request, h⟩ | h
    · simp only [h]
      exact le_refl _
    · simp only [h]
      exact le_of_eq ((hinv key).left_enqueue ⟨hlt, hgoal⟩ request)
    · exact le_of_lt ((hinv key).left_drainStep ⟨hlt, hgoal⟩ h)
  · rintro s s' ⟨hinv, hlt⟩ hgoal ⟨k, hk, rfl⟩
    right
    have hlt' := (hinv key).left_drainStep ⟨hlt, hgoal⟩ hk
    simpa using hlt'

/-- The queues serve every key in the order of arrival: at any time of any run it has one drain task at most, its requests
run each once and in order, each after all earlier ones outside its batch, an exclusive one alone; its handler starts
unless its gate was closed. The key leaves the map only with an empty queue and nothing running, and as long as its drain
task is given its turns every request runs to its end. -/
theorem requests_serialized (e : Serving K G) : (∀ t key, Discipline (e.state t).accepting ((e.state t).keys key)) ∧
    (∀ t key, ((e.state t).keys key).queue.isSome → ((e.state (t + 1)).keys key).queue = none →
      ((e.state t).keys key).queue = some [] ∧ ∀ i, ¬ ((e.state t).keys key).Running i) ∧
    (∀ key, e.Fair (DrainsKey key) → ∀ t i, i < ((e.state t).keys key).enqueued.length →
      ∃ u, t ≤ u ∧ .finish i ∈ ((e.state u).keys key).log) := by
  refine ⟨fun t key => (e.inv t key).discipline, fun t key hbefore hafter => ?_, fun key hfair t i hi => ?_⟩
  · rcases e.step t with h | h
    · exact h.removed (e.inv t) hbefore hafter
    · rw [h] at hafter
      rw [hafter] at hbefore
      cases hbefore
  · exact e.eventually_finish hfair hi

/-! ## Runs of one key -/

/-- A turn of the drain task, where the key has one; `poll` names a request by its place in the batch. -/
inductive Turn where
  | spawn
  | lock
  | poll (i : Nat)
  | join

/-- What the turn does, if it can be taken. -/
def Turn.next (accepting : Unit → Bool) (k : KeyState Unit) : Turn → Option (KeyState Unit)
  | .spawn =>
    if k.spawning ≠ 0 then some { k with spawning := k.spawning - 1, drains := .locking :: k.drains } else none
  | .lock => if k.drains = [.locking] then some (k.drain [] []) else none
  | .poll i =>
    match k.drains with
    | [.joining batch] =>
      match batch.splitAt i with
      | (front, r :: back) =>
        if r.phase ≠ .finished ∧ (r.phase = .ready → ∀ r' ∈ front, r'.phase ≠ .ready) then
          some { k with
            drains := [.joining (front ++ { r with phase := (r.advance accepting).1 } :: back)]
            log := k.log ++ (r.advance accepting).2 }
        else none
      | _ => none
    | _ => none
  | .join =>
    match k.drains with
    | [.joining batch] => if ∀ r ∈ batch, r.phase = .finished then some { k with drains := [.locking] } else none
    | _ => none

theorem Turn.drainStep {accepting : Unit → Bool} {k k' : KeyState Unit} {turn : Turn}
    (h : turn.next accepting k = some k') : DrainStep accepting k k' := by
  cases turn with
  | spawn =>
    simp only [next, Option.ite_none_right_eq_some, Option.some.injEq] at h
    obtain ⟨hspawning, rfl⟩ := h
    exact .spawn (by omega)
  | lock =>
    simp only [next, Option.ite_none_right_eq_some, Option.some.injEq] at h
    obtain ⟨hdrains, rfl⟩ := h
    exact @DrainStep.lock _ _ _ [] [] hdrains
  | poll i =>
    simp only [next] at h
    split at h
    · rename_i batch hdrains
      split at h
      · rename_i front r back hsplit
        simp only [Option.ite_none_right_eq_some, Option.some.injEq] at h
        obtain ⟨⟨hphase, hfront⟩, rfl⟩ := h
        have hbatch : batch = front ++ r :: back := by
          rw [splitAt_eq, Prod.mk.injEq] at hsplit
          rw [← hsplit.1, ← hsplit.2, take_append_drop]
        rw [hbatch] at hdrains
        exact @DrainStep.advance _ _ _ [] [] front back r hdrains hphase hfront
      · cases h
    · cases h
  | join =>
    simp only [next] at h
    split at h
    · rename_i batch hdrains
      simp only [Option.ite_none_right_eq_some, Option.some.injEq] at h
      obtain ⟨hbatch, rfl⟩ := h
      exact @DrainStep.join _ _ _ [] [] batch hdrains hbatch
    · cases h

/-- A step of the system, as a choice. -/
inductive Move where
  | close
  | enqueue (request : QueuedSerializedRequest Unit)
  | drain (turn : Turn)

/-- A move that can not be made changes nothing. -/
def Move.apply (move : Move) (s : State Unit Unit) : State Unit Unit :=
  match move with
  | .close => { s with accepting := Function.update s.accepting () false }
  | .enqueue request => { s with keys := Function.update s.keys () ((s.keys ()).enqueue request) }
  | .drain turn =>
    match turn.next s.accepting (s.keys ()) with
    | some k => { s with keys := Function.update s.keys () k }
    | none => s

theorem Move.drainsKey {s : State Unit Unit} {turn : Turn} (h : (turn.next s.accepting (s.keys ())).isSome) :
    DrainsKey () s ((Move.drain turn).apply s) := by
  obtain ⟨k, hk⟩ := Option.isSome_iff_exists.mp h
  refine ⟨k, Turn.drainStep hk, ?_⟩
  simp only [apply, hk]

theorem Move.step (move : Move) (s : State Unit Unit) : Step s (move.apply s) ∨ move.apply s = s := by
  cases move with
  | close => exact .inl (.close s ())
  | enqueue request => exact .inl (.enqueue s () request)
  | drain turn =>
    by_cases h : (turn.next s.accepting (s.keys ())).isSome
    · exact .inl (.drain () (Move.drainsKey h))
    · rw [Option.not_isSome_iff_eq_none] at h
      right
      simp only [apply, h]

/-- The run of the moves, from the start. -/
def serve (moves : List Move) : Serving Unit Unit := Execution.ofMoves Move.apply Move.step (State.init Unit Unit) moves

/-- A run is fair to the drain task if its last move is the last turn of the task. -/
theorem fair_serve {moves : List Move} {turn : Turn} {s : State Unit Unit}
    (hs : moves.foldl (fun s move => move.apply s) (State.init Unit Unit) = s)
    (hturn : (turn.next s.accepting (s.keys ())).isSome)
    (hspawning : (((Move.drain turn).apply s).keys ()).spawning = 0)
    (hdrains : (((Move.drain turn).apply s).keys ()).drains = []) :
    (serve (moves ++ [.drain turn])).Fair (DrainsKey ()) := by
  refine Execution.fair_ofMoves hs (Move.drainsKey hturn) ?_
  rintro s' ⟨k, hstep, -⟩
  cases hstep with
  | spawn h => omega
  | lock h | advance h | join h => rw [hdrains] at h; simp at h

def read : QueuedSerializedRequest Unit := ⟨.sharedRead, ⟨some ()⟩⟩

def write : QueuedSerializedRequest Unit := ⟨.exclusive, ⟨none⟩⟩

/-- Two requests that share the key, the second of which returns first, and one behind them that does not. -/
def sharedMoves : List Move :=
  [.enqueue read, .enqueue read, .enqueue write, .drain .spawn, .drain .lock, .drain (.poll 0), .drain (.poll 1),
    .drain (.poll 0), .drain (.poll 1), .drain (.poll 1), .drain (.poll 0), .drain .join, .drain .lock, .drain (.poll 0),
    .drain (.poll 0), .drain .join]

def sharedRun : Serving Unit Unit := serve (sharedMoves ++ [.drain .lock])

theorem fair_sharedRun : sharedRun.Fair (DrainsKey ()) :=
  fair_serve rfl (by decide +kernel) (by decide +kernel) (by decide +kernel)

/-- Both run at once, while the third is queued; all is in order, and the third runs to its end. -/
theorem requests_serialized_shared :
    (((sharedRun.state 9).keys ()).Running 0 ∧ ((sharedRun.state 9).keys ()).Running 1 ∧
      ((sharedRun.state 9).keys ()).queue = some [write]) ∧
    Discipline (sharedRun.state 17).accepting ((sharedRun.state 17).keys ()) ∧
    (((sharedRun.state 16).keys ()).queue = some [] ∧ ∀ i, ¬ ((sharedRun.state 16).keys ()).Running i) ∧
    ∃ u, 3 ≤ u ∧ .finish 2 ∈ ((sharedRun.state u).keys ()).log :=
  ⟨⟨by unfold KeyState.Running; decide +kernel, by unfold KeyState.Running; decide +kernel, by decide +kernel⟩,
    (requests_serialized sharedRun).1 17 (),
    (requests_serialized sharedRun).2.1 16 () (by decide +kernel) (by decide +kernel),
    (requests_serialized sharedRun).2.2 () fair_sharedRun 3 2 (by decide +kernel)⟩

/-- The gate closes before the request of its connection comes. -/
def closedMoves : List Move :=
  [.close, .enqueue read, .drain .spawn, .drain .lock, .drain (.poll 0), .drain (.poll 0), .drain .join]

def closedRun : Serving Unit Unit := serve (closedMoves ++ [.drain .lock])

/-- The connection closes its gate, and its request is never started though its drain task has all its turns. -/
theorem closed_request_not_started :
    closedRun.Fair (DrainsKey ()) ∧ ((closedRun.state 2).keys ()).enqueued = [read] ∧
      ∀ t, .start 0 ∉ ((closedRun.state t).keys ()).log := by
  refine ⟨fair_serve rfl (by decide +kernel) (by decide +kernel) (by decide +kernel), by decide +kernel, ?_⟩
  refine @Execution.forall_ofMoves _ _ _ _ Move.step _ _ (fun s => .start 0 ∉ (s.keys ()).log) ?_
  decide +kernel

end Dcode.AppServer
