import Dcode.ExecServer.Proofs.LocalProcessProofs

/-!
# What a new subscriber gets

The history of the event log is a bounded part of what was sent. As long as no output is evicted from the process itself, the
history has the last event, so a subscriber always has something to receive when it is behind. What it receives comes in the
order of the log, though events may be left out.
-/

namespace Dcode.ExecServer

open List Nat ExecProcessEvent

theorem evict_concat_ne_nil {α : Type} {len : α → Nat} {maxCount maxBytes : Nat} (hcount : 0 < maxCount) {last : α}
    (hlast : len last ≤ maxBytes) (entries : List α) {bytes : Nat} (hbytes : bytes = ((entries ++ [last]).map len).sum) :
    (evict len maxCount maxBytes (entries ++ [last]) bytes).1 ≠ [] := by
  induction entries generalizing bytes with
  | nil =>
    have hsum : bytes = len last := by
      rw [hbytes, nil_append, map_singleton, sum_singleton]
    have hfits : ¬ (decide ([last].length > maxCount) || decide (bytes > maxBytes)) := by
      rw [Bool.or_eq_true, decide_eq_true_eq, decide_eq_true_eq, length_singleton]
      omega
    rw [nil_append, evict, if_neg hfits]
    exact cons_ne_nil _ _
  | cons a entries ih =>
    rw [cons_append, evict]
    split
    · apply ih
      rw [hbytes, cons_append, map_cons, sum_cons]
      omega
    · exact cons_ne_nil _ _

namespace RunningProcess

variable {process : RunningProcess}

/-! ## What a step sends and retains -/

inductive Emits (process process' : RunningProcess) : Prop where
  | nothing (events : process'.events = process.events) (output : process'.output = process.output)
  | lifecycle (event : ExecProcessEvent) (chunk : event.chunk? = none) (retainedLen : event.retainedLen = 0)
      (events : process'.events = process.events.publish event) (output : process'.output = process.output)
  | output (chunk : ProcessOutputChunk) (events : process'.events = process.events.publish (.output chunk))
      (output : process'.output <:+ process.output ++ [chunk])

theorem Sound.emits (h : Sound process) (classify : SandboxClassifier) (step : ProcessStep) :
    Emits process (process.step classify step) := by
  cases step with
  | output stream chunk =>
    rw [RunningProcess.step]
    split
    · exact .nothing rfl rfl
    · refine .output { seq := process.nextSeq, stream, chunk } rfl (evict_spec _ ?_).1
      rw [h.retainedBytes, map_append, sum_append_nat]
      rfl
  | finishStream => exact .nothing rfl rfl
  | exit exitCode =>
    rw [RunningProcess.step]
    split
    · exact .nothing rfl rfl
    · exact .lifecycle _ rfl rfl rfl rfl
  | maybeClose =>
    rw [RunningProcess.step, RunningProcess.maybeEmitClosed]
    split
    · exact .nothing rfl rfl
    · exact .lifecycle _ rfl rfl rfl rfl

/-! ## The history -/

/-- The history is the end of what was sent, and has something of it while no output is evicted. -/
structure Replays (process : RunningProcess) : Prop where
  history : process.events.history <:+ process.events.sent
  retainedBytes : process.events.retainedBytes = (process.events.history.map ExecProcessEvent.retainedLen).sum
  eventCapacity : 0 < process.events.eventCapacity
  byteCapacity : retainedOutputBytesPerProcess ≤ process.events.byteCapacity
  replay : process.output = process.events.sent.filterMap ExecProcessEvent.chunk? → process.events.history = [] →
    process.events.sent = []

theorem replays_start (sandboxed : Bool) :
    Replays (start sandboxed processEventChannelCapacity retainedOutputBytesPerProcess) where
  history := suffix_rfl
  retainedBytes := rfl
  eventCapacity := succ_pos 255
  byteCapacity := le_refl _
  replay := fun _ _ => rfl

theorem Replays.publish (h : Replays process) {process' : RunningProcess} {event : ExecProcessEvent}
    (hevents : process'.events = process.events.publish event)
    (hfits : process'.output = process'.events.sent.filterMap chunk? →
      event.retainedLen ≤ retainedOutputBytesPerProcess) : Replays process' := by
  have hbytes : process.events.retainedBytes + event.retainedLen =
      ((process.events.history ++ [event]).map retainedLen).sum := by
    rw [h.retainedBytes, map_append, sum_append_nat]
    rfl
  obtain ⟨hsuffix, hsum, -⟩ :=
    @evict_spec _ _ process.events.eventCapacity process.events.byteCapacity _ _ hbytes
  obtain ⟨older, holder⟩ := h.history
  refine ⟨?_, ?_, ?_, ?_, ?_⟩
  · rw [hevents]
    refine hsuffix.trans ⟨older, ?_⟩
    rw [← append_assoc, holder]
    rfl
  · rw [hevents]
    exact hsum
  · rw [hevents]
    exact h.eventCapacity
  · rw [hevents]
    exact h.byteCapacity
  · intro hunevicted hnil
    have hlast : event.retainedLen ≤ process.events.byteCapacity := le_trans (hfits hunevicted) h.byteCapacity
    rw [hevents] at hnil
    exact absurd hnil (evict_concat_ne_nil h.eventCapacity hlast _ hbytes)

theorem Replays.step (hreplays : Replays process) (h : Sound process) (classify : SandboxClassifier) (step : ProcessStep) :
    Replays (process.step classify step) := by
  have hsound := h.step classify step
  cases h.emits classify step with
  | nothing events output =>
    refine ⟨?_, ?_, ?_, ?_, ?_⟩
    · rw [events]
      exact hreplays.history
    · rw [events]
      exact hreplays.retainedBytes
    · rw [events]
      exact hreplays.eventCapacity
    · rw [events]
      exact hreplays.byteCapacity
    · rw [events, output]
      exact hreplays.replay
  | lifecycle event _ hlen events _ =>
    refine hreplays.publish events fun _ => ?_
    rw [hlen]
    exact zero_le _
  | output chunk events _ =>
    refine hreplays.publish events fun hunevicted => ?_
    -- a chunk that is retained is part of the retained bytes
    have hmem : chunk ∈ (process.step classify step).output := by
      rw [hunevicted, events]
      exact List.mem_filterMap.mpr ⟨.output chunk, mem_append_right _ mem_cons_self, rfl⟩
    have hbytes := hsound.retainedBytes_le
    rw [hsound.retainedBytes] at hbytes
    have hmap : chunk.chunk.length ∈ (process.step classify step).output.map fun kept => kept.chunk.length :=
      List.mem_map.mpr ⟨chunk, hmem, rfl⟩
    exact le_trans (single_le_sum (fun _ _ => zero_le _) _ hmap) hbytes

end RunningProcess

/-! ## Receivers -/

namespace ExecProcessEventReceiver

def pending (receiver : ExecProcessEventReceiver) (log : ExecProcessEventLog) : List ExecProcessEvent :=
  receiver.replay ++ log.sent.drop receiver.position

structure Follows (receiver : ExecProcessEventReceiver) (log : ExecProcessEventLog) : Prop where
  position_le : receiver.position ≤ log.sent.length
  pending : receiver.pending log <:+ log.sent

variable {receiver : ExecProcessEventReceiver} {log : ExecProcessEventLog}

theorem pending_subscribe (log : ExecProcessEventLog) : log.subscribe.pending log = log.history := by
  rw [pending, ExecProcessEventLog.subscribe, drop_length, append_nil]

theorem follows_subscribe (h : log.history <:+ log.sent) : log.subscribe.Follows log where
  position_le := le_refl _
  pending := by
    rw [pending_subscribe]
    exact h

theorem Follows.pending_append (h : receiver.Follows log) {log' : ExecProcessEventLog} {new : List ExecProcessEvent}
    (hsent : log'.sent = log.sent ++ new) : receiver.pending log' = receiver.pending log ++ new := by
  rw [ExecProcessEventReceiver.pending, ExecProcessEventReceiver.pending, hsent,
    drop_append_of_le_length h.position_le, append_assoc]

theorem Follows.append (h : receiver.Follows log) {log' : ExecProcessEventLog} {new : List ExecProcessEvent}
    (hsent : log'.sent = log.sent ++ new) : receiver.Follows log' where
  position_le := by
    rw [hsent, length_append]
    exact le_trans h.position_le (le_add_right _ _)
  pending := by
    obtain ⟨passed, hpassed⟩ := h.pending
    refine ⟨passed, ?_⟩
    rw [h.pending_append hsent, ← append_assoc, hpassed, hsent]

theorem recv_isSome (h : receiver.pending log ≠ []) : (receiver.recv log).isSome := by
  rw [recv]
  split
  · rfl
  next hreplay =>
    rw [pending, hreplay, nil_append, Ne, drop_eq_nil_iff, not_le] at h
    rw [getElem?_eq_getElem h]
    rfl

variable {receiver' : ExecProcessEventReceiver}

theorem pending_of_recv {event : ExecProcessEvent} (h : receiver.recv log = some (event, receiver')) :
    receiver.pending log = event :: receiver'.pending log := by
  rw [recv] at h
  split at h
  next first replay hreplay =>
    obtain ⟨rfl, rfl⟩ := Prod.mk.inj (Option.some.inj h)
    rw [pending, hreplay]
    rfl
  next hreplay =>
    obtain ⟨first, hfirst, heq⟩ := Option.map_eq_some_iff.mp h
    obtain ⟨rfl, rfl⟩ := Prod.mk.inj heq
    obtain ⟨hlt, hget⟩ := List.getElem?_eq_some_iff.mp hfirst
    rw [pending, hreplay, drop_eq_getElem_cons hlt, hget]
    rfl

theorem Follows.recv {event : ExecProcessEvent} (hfollows : receiver.Follows log)
    (h : receiver.recv log = some (event, receiver')) : receiver'.Follows log := by
  constructor
  · rw [ExecProcessEventReceiver.recv] at h
    split at h
    · obtain ⟨rfl, rfl⟩ := Prod.mk.inj (Option.some.inj h)
      exact hfollows.position_le
    · obtain ⟨first, hfirst, heq⟩ := Option.map_eq_some_iff.mp h
      obtain ⟨rfl, rfl⟩ := Prod.mk.inj heq
      exact (List.getElem?_eq_some_iff.mp hfirst).1
  · have hpending := hfollows.pending
    rw [pending_of_recv h] at hpending
    exact (suffix_cons _ _).trans hpending

theorem Follows.lag {skipped : Nat} (h : receiver.lag log skipped = some receiver') : receiver'.Follows log := by
  rw [ExecProcessEventReceiver.lag] at h
  split at h
  next hlag =>
    obtain rfl := Option.some.inj h
    refine ⟨hlag.2.2, ?_⟩
    rw [hlag.1]
    exact drop_suffix _ _
  · cases h

end ExecProcessEventReceiver

end Dcode.ExecServer
