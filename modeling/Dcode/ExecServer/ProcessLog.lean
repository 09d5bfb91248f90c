import Dcode.Lib.NumberedLog
import Dcode.ExecServer.LocalProcess
import Dcode.ExecServer.SessionState

/-!
# The log of a process, and what is left of it

All events of a process in their order: output, at most one exit, and the close as the last one. A server keeps the later
chunks of it, and a read at some time tells those and how far the log goes.
-/

namespace Dcode.ExecServer

open NumberedLog

/-- The events of a process, numbered from one on. -/
structure ProcessLog where
  events : List ExecProcessEvent
  numbered : Numbered ExecProcessEvent.seq events
  exit_unique : ∀ e ∈ events, ∀ e' ∈ events, e.isExited → e'.isExited → e = e'
  exit_classified : ∀ seq exitCode sandboxDenied, .exited seq exitCode sandboxDenied ∈ events → sandboxDenied.isSome
  closed_last : ∀ e ∈ events, e.isClosed → e.seq = some events.length

/-- What the server has of a log at the time of a read: the first events have happened, and the output up to some number is
evicted. A chunk that is kept is no larger than what the server keeps in all. -/
structure Retained (log : ProcessLog) where
  count : Nat
  count_le : count ≤ log.events.length
  evictedThrough : Nat
  fits : ∀ chunk, .output chunk ∈ log.events → evictedThrough < chunk.seq → chunk.seq ≤ count →
    chunk.chunk.length ≤ retainedOutputBytesPerProcess

namespace Retained

variable {log : ProcessLog} (retained : Retained log)

/-- The exit, if it has happened. -/
def exit? : Option ExecProcessEvent :=
  (log.events.take retained.count).find? ExecProcessEvent.isExited

/-- The chunks that are kept behind a number. -/
def chunks (afterSeq : Nat) : List ProcessOutputChunk :=
  ((log.events.take retained.count).filterMap ExecProcessEvent.chunk?).filter fun chunk =>
    afterSeq < chunk.seq && retained.evictedThrough < chunk.seq

/-- The exit code of an event. -/
def exitCode? : ExecProcessEvent → Option Int
  | .exited _ exitCode _ => some exitCode
  | _ => none

def deniedBy : ExecProcessEvent → Bool
  | .exited _ _ sandboxDenied => sandboxDenied.getD false
  | _ => false

/-- The truthful response to a read without a limit. -/
def response (afterSeq : Nat) : ReadResponse where
  chunks := retained.chunks afterSeq
  nextSeq := retained.count + 1
  exited := retained.exit?.isSome
  exitCode := retained.exit?.bind exitCode?
  closed := (log.events.take retained.count).any ExecProcessEvent.isClosed
  failure := none
  sandboxDenied := retained.exit?.any deniedBy

/-- The event with a number is output that is still kept. -/
def Keeps (seq : Nat) : Prop :=
  ∃ chunk, .output chunk ∈ log.events ∧ chunk.seq = seq ∧ retained.evictedThrough < seq

def Evicted (seq : Nat) : Prop :=
  ∃ chunk, .output chunk ∈ log.events ∧ chunk.seq = seq ∧ seq ≤ retained.evictedThrough

end Retained

namespace SessionState

def Known (st : SessionState) (seq : Nat) : Prop :=
  seq ≤ st.orderedEvents.lastPublishedSeq ∨ (SortedAssoc.get seq st.orderedEvents.pending).isSome

def Faithful (log : ProcessLog) (st : SessionState) : Prop :=
  st.published.filter (·.seq.isSome) = log.events.take st.orderedEvents.lastPublishedSeq

/-- A client that has been told of some events. -/
def deliver (events : List ExecProcessEvent) : SessionState := events.foldl handleNotification {}

variable {log : ProcessLog}

/-- The client needs output that is no longer kept. -/
def NeedsEvicted (retained : Retained log) (st : SessionState) : Prop :=
  ∃ seq, seq ≤ retained.count ∧ ¬ st.Known seq ∧ retained.Evicted seq

/-- Recovery publishes only the first events of the log; it reaches the end of the response if it succeeds; and it fails if
an event is needed that is no longer kept. -/
structure RecoversTruly (log : ProcessLog) (retained : Retained log) (st : SessionState) (response : ReadResponse) : Prop where
  grows : st.published <+: (Wp.after (recoverEvents response) st).published
  faithful : Faithful log (Wp.after (recoverEvents response) st)
  reaches : ∀ closed st', recoverEvents response st = .ok closed st' → retained.count ≤ st'.orderedEvents.lastPublishedSeq
  rejects : st.NeedsEvicted retained → ∃ message st', recoverEvents response st = .error message st'

/-- The first event that the client cannot get is evicted output, a later chunk is kept, and the exit has happened but is not
known: then the gap before the chunk is taken for the exit. -/
def MistakesGap (retained : Retained log) (st : SessionState) : Prop :=
  ∃ gap chunk exit, gap < chunk ∧ chunk ≤ retained.count ∧ ¬ st.Known gap ∧ retained.Evicted gap ∧
    (∀ seq, 1 ≤ seq → seq < gap → st.Known seq ∨ retained.Keeps seq) ∧ retained.Keeps chunk ∧
    exit ≤ retained.count ∧ ¬ st.Known exit ∧ ∃ event ∈ log.events, event.seq = some exit ∧ event.isExited

end SessionState

end Dcode.ExecServer
