import Dcode.Lib.Str

/-!
# Process events

What an exec server tells about a process: its output in chunks, its exit and the end of its output. The events are numbered
by the process that they belong to.
-/

namespace Dcode.ExecServer

inductive ExecOutputStream where
  | stdout
  | stderr
  | pty
deriving DecidableEq

structure ProcessOutputChunk where
  seq : Nat
  stream : ExecOutputStream
  chunk : Bytes
deriving DecidableEq

inductive ExecProcessEvent where
  | output (chunk : ProcessOutputChunk)
  | exited (seq : Nat) (exitCode : Int) (sandboxDenied : Option Bool)
  | closed (seq : Nat)
  | failed (message : Str)
deriving DecidableEq

namespace ExecProcessEvent

def seq : ExecProcessEvent → Option Nat
  | output chunk => some chunk.seq
  | exited seq _ _ => some seq
  | closed seq => some seq
  | failed _ => none

def retainedLen : ExecProcessEvent → Nat
  | output chunk => chunk.chunk.length
  | failed message => Str.byteLen message
  | exited .. | closed .. => 0

/-- The chunk of an output event. -/
def chunk? : ExecProcessEvent → Option ProcessOutputChunk
  | output chunk => some chunk
  | _ => none

/-- The event is the exit. -/
def isExited : ExecProcessEvent → Bool
  | exited .. => true
  | _ => false

/-- The event is the end of the output. -/
def isClosed : ExecProcessEvent → Bool
  | closed _ => true
  | _ => false

end ExecProcessEvent

structure ReadResponse where
  chunks : List ProcessOutputChunk
  nextSeq : Nat
  exited : Bool
  exitCode : Option Int
  closed : Bool
  failure : Option Str
  sandboxDenied : Bool
deriving DecidableEq

/-! ## The event log -/

/-- `ExecProcessEventLog`: a bounded history for new subscribers, and all that was sent to the others so far. -/
structure ExecProcessEventLog where
  history : List ExecProcessEvent
  retainedBytes : Nat
  sent : List ExecProcessEvent
  eventCapacity : Nat
  byteCapacity : Nat
deriving DecidableEq

def ExecProcessEventLog.new (eventCapacity byteCapacity : Nat) : ExecProcessEventLog :=
  { history := [], retainedBytes := 0, sent := [], eventCapacity, byteCapacity }

/-- Drops the oldest entries while there are too many of them or they hold too many bytes. -/
def evict {α : Type} (len : α → Nat) (maxCount maxBytes : Nat) : List α → Nat → List α × Nat
  | [], bytes => ([], bytes)
  | a :: rest, bytes =>
    if (a :: rest).length > maxCount || bytes > maxBytes then evict len maxCount maxBytes rest (bytes - len a)
    else (a :: rest, bytes)

def ExecProcessEventLog.publish (log : ExecProcessEventLog) (event : ExecProcessEvent) : ExecProcessEventLog :=
  let kept := evict ExecProcessEvent.retainedLen log.eventCapacity log.byteCapacity (log.history ++ [event])
    (log.retainedBytes + event.retainedLen)
  { log with history := kept.1, retainedBytes := kept.2, sent := log.sent ++ [event] }

/-! ## Receivers -/

/-- `ExecProcessEventReceiver`: the history that is replayed first, and how many events the live channel has passed on. -/
structure ExecProcessEventReceiver where
  replay : List ExecProcessEvent
  position : Nat
deriving DecidableEq

def ExecProcessEventLog.subscribe (log : ExecProcessEventLog) : ExecProcessEventReceiver :=
  { replay := log.history, position := log.sent.length }

namespace ExecProcessEventReceiver

/-- `ExecProcessEventReceiver::recv`, when it has an event; without one it waits. -/
def recv (receiver : ExecProcessEventReceiver) (log : ExecProcessEventLog) :
    Option (ExecProcessEvent × ExecProcessEventReceiver) :=
  match receiver.replay with
  | event :: replay => some (event, { receiver with replay })
  | [] => log.sent[receiver.position]?.map fun event => (event, { receiver with position := receiver.position + 1 })

/-- `ExecProcessEventReceiver::recv`, when the live channel has dropped the next events. The channel is bounded, but which of
the events it has dropped is up to it. -/
def lag (receiver : ExecProcessEventReceiver) (log : ExecProcessEventLog) (skipped : Nat) :
    Option ExecProcessEventReceiver :=
  if receiver.replay = [] ∧ 0 < skipped ∧ receiver.position + skipped ≤ log.sent.length then
    some { receiver with position := receiver.position + skipped }
  else none

end ExecProcessEventReceiver

end Dcode.ExecServer
