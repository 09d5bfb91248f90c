import Dcode.Lib.SortedAssoc
import Dcode.Lib.Wp
import Dcode.ExecServer.Process

/-!
# The session of a process at the client

The client publishes the events of a process in the order of their numbers, and keeps those that come early. After a dropped
connection it reads what the server still has and fills the gap.
-/

namespace Dcode.ExecServer

def maxPendingProcessEvents : Nat := 256

def maxPendingProcessEventBytes : Nat := 1024 * 1024

structure OrderedSessionEvents where
  lastPublishedSeq : Nat := 0
  exitPublished : Bool := false
  closedPublished : Bool := false
  pending : List (Nat × ExecProcessEvent) := []
  pendingBytes : Nat := 0
  failure : Option Str := none
deriving DecidableEq

/-- `SessionState`: its ordered events, and what it has published. -/
structure SessionState where
  orderedEvents : OrderedSessionEvents := {}
  published : List ExecProcessEvent := []
deriving DecidableEq

/-- A number in a message. -/
def numberText (n : Nat) : Str := Nat.toDigits 10 n

def OrderedSessionEvents.insertPending (events : OrderedSessionEvents) (event : ExecProcessEvent) :
    Except Str OrderedSessionEvents :=
  match event.seq with
  | none => .error "cannot reorder an unsequenced process event".toList
  | some seq =>
    if (SortedAssoc.get seq events.pending).isSome then .ok events
    else
      let closesGap := seq == events.lastPublishedSeq + 1
      if !closesGap && decide (events.pending.length ≥ maxPendingProcessEvents) then
        .error ("process event reorder buffer exceeds ".toList ++ numberText maxPendingProcessEvents ++ " entries".toList)
      else if event.retainedLen > maxPendingProcessEventBytes then
        .error ("process event exceeds ".toList ++ numberText maxPendingProcessEventBytes ++ " bytes".toList)
      else if !closesGap && decide (events.pendingBytes + event.retainedLen > maxPendingProcessEventBytes) then
        .error ("process event reorder buffer exceeds ".toList ++ numberText maxPendingProcessEventBytes ++
          " bytes".toList)
      else
        .ok
          { events with
            pending := SortedAssoc.insert seq event events.pending
            pendingBytes := events.pendingBytes + event.retainedLen }

def OrderedSessionEvents.pendingThrough (events : OrderedSessionEvents) (targetSeq : Nat) : List Nat :=
  (events.pending.map Prod.fst).filter fun seq => events.lastPublishedSeq + 1 ≤ seq && seq ≤ targetSeq

namespace SessionState

variable (st : SessionState) (event : ExecProcessEvent)

def publishNext : SessionState :=
  let events := st.orderedEvents
  let nextSeq := events.lastPublishedSeq + 1
  { orderedEvents :=
      { events with
        pending := SortedAssoc.remove nextSeq events.pending
        pendingBytes := events.pendingBytes - event.retainedLen
        lastPublishedSeq := nextSeq
        exitPublished := events.exitPublished || event.isExited
        closedPublished := events.closedPublished || event.isClosed }
    published := st.published ++ [event] }

/-- The loop of `publish_ready`: it ends after as many rounds as there are pending events. -/
def publishReadyLoop : Nat → SessionState → SessionState × Bool
  | 0, st => (st, false)
  | rounds + 1, st =>
    match SortedAssoc.get (st.orderedEvents.lastPublishedSeq + 1) st.orderedEvents.pending with
    | none => (st, false)
    | some event =>
      let result := publishReadyLoop rounds (st.publishNext event)
      (result.1, event.isClosed || result.2)

def publishReady : SessionState × Bool := publishReadyLoop st.orderedEvents.pending.length st

def publishOrderedEvent : SessionState × Except Str Bool :=
  match event.seq with
  | none => ({ st with published := st.published ++ [event] }, .ok false)
  | some seq =>
    if st.orderedEvents.failure.isSome || st.orderedEvents.closedPublished || seq ≤ st.orderedEvents.lastPublishedSeq then
      (st, .ok false)
    else
      match st.orderedEvents.insertPending event with
      | .error message => (st, .error message)
      | .ok orderedEvents =>
        let result := publishReady { st with orderedEvents }
        (result.1, .ok result.2)

def setFailure (message : Str) : SessionState :=
  if st.orderedEvents.failure.isSome || st.orderedEvents.closedPublished then st
  else
    { orderedEvents := { st.orderedEvents with failure := some message, pending := [], pendingBytes := 0 }
      published := st.published ++ [.failed message] }

def handleNotification : SessionState :=
  let result := st.publishOrderedEvent event
  match result.2 with
  | .ok _ => result.1
  | .error message => result.1.setFailure message

/-! ## Recovery -/

/-- The recovery of events: it may stop, with what it has published so far. -/
abbrev RecoverM : Type → Type := EStateM Str SessionState

/-- `insert_pending` in the recovery. -/
def insertPendingM : RecoverM Unit := fun st =>
  match st.orderedEvents.insertPending event with
  | .ok orderedEvents => .ok () { st with orderedEvents }
  | .error message => .error message st

/-- `publish_ready` in the recovery. -/
def publishReadyM : RecoverM Bool := fun st => .ok st.publishReady.2 st.publishReady.1

/-- The first pending exit up to a number, with what the response says of the sandbox. -/
def amendPendingExit (targetSeq : Nat) (sandboxDenied : Bool) :
    List (Nat × ExecProcessEvent) → List (Nat × ExecProcessEvent)
  | [] => []
  | (seq, event) :: rest =>
    if seq ≤ targetSeq then
      match event with
      | .exited eventSeq exitCode pending =>
        (seq, .exited eventSeq exitCode (some (pending.getD false || sandboxDenied))) :: rest
      | _ => (seq, event) :: amendPendingExit targetSeq sandboxDenied rest
    else (seq, event) :: rest

/-- The session with its first pending exit amended. -/
def amendExit (targetSeq : Nat) (sandboxDenied : Bool) (st : SessionState) : SessionState :=
  { st with
    orderedEvents :=
      { st.orderedEvents with pending := amendPendingExit targetSeq sandboxDenied st.orderedEvents.pending } }

def recoveryGapError (targetSeq : Nat) : Str :=
  "process events are no longer retained while recovering through sequence ".toList ++ numberText targetSeq

variable (response : ReadResponse)

def recoveredExitCode : RecoverM Int :=
  match response.exitCode with
  | some exitCode => pure exitCode
  | none => throw "recovering exited process did not include its exit code".toList

/-- What the recovery remembers from chunk to chunk. -/
structure Recovered where
  exitKnown : Bool
  publishedClosed : Bool

/-- The exit is taken to be in the gap before a chunk. -/
def recoverExitBefore (recovered : Recovered) (chunk : ProcessOutputChunk) : RecoverM Recovered := do
  let st ← get
  let nextSeq := st.orderedEvents.lastPublishedSeq + 1
  if response.exited && !recovered.exitKnown && decide (chunk.seq > nextSeq) then
    let exitCode ← recoveredExitCode response
    insertPendingM (.exited nextSeq exitCode (some response.sandboxDenied))
    let publishedClosed ← publishReadyM
    pure { exitKnown := true, publishedClosed := recovered.publishedClosed || publishedClosed }
  else pure recovered

/-- The chunk is published if all before it are. -/
def recoverOutput (recovered : Recovered) (chunk : ProcessOutputChunk) : RecoverM Recovered := do
  let st ← get
  if chunk.seq > st.orderedEvents.lastPublishedSeq then
    insertPendingM (.output chunk)
    let publishedClosed ← publishReadyM
    pure { recovered with publishedClosed := recovered.publishedClosed || publishedClosed }
  else pure recovered

def recoverChunk (targetSeq : Nat) (recovered : Recovered) (chunk : ProcessOutputChunk) : RecoverM Recovered := do
  if chunk.seq > targetSeq then
    throw ("recovered process output sequence ".toList ++ numberText chunk.seq ++ " exceeds target sequence ".toList ++
      numberText targetSeq)
  else
    let recovered ← recoverExitBefore response recovered chunk
    recoverOutput recovered chunk

def firstMissingSeq : Nat → List Nat → Nat
  | expected, [] => expected
  | expected, seq :: rest => if seq = expected then firstMissingSeq (expected + 1) rest else expected

/-- The close of `recover_events`, if it is not known. -/
def recoverClosed (targetSeq : Nat) : RecoverM Unit := do
  let st ← get
  if response.closed && !st.orderedEvents.closedPublished &&
      !(SortedAssoc.get targetSeq st.orderedEvents.pending).any ExecProcessEvent.isClosed then
    insertPendingM (.closed targetSeq)

/-- The end of `recover_events`: no event but the exit may be missing. -/
def recoverMissing (targetSeq : Nat) (recovered : Recovered) : RecoverM Bool := do
  let st ← get
  let eventCount := targetSeq - st.orderedEvents.lastPublishedSeq
  let missingCount := eventCount - (st.orderedEvents.pendingThrough targetSeq).length
  if response.exited && !recovered.exitKnown then
    if missingCount ≠ 1 then throw (recoveryGapError targetSeq)
    else
      let seq := firstMissingSeq (st.orderedEvents.lastPublishedSeq + 1) (st.orderedEvents.pendingThrough targetSeq)
      let exitCode ← recoveredExitCode response
      insertPendingM (.exited seq exitCode (some response.sandboxDenied))
      let publishedClosed ← publishReadyM
      pure (recovered.publishedClosed || publishedClosed)
  else if missingCount ≠ 0 then throw (recoveryGapError targetSeq)
  else
    let publishedClosed ← publishReadyM
    pure (recovered.publishedClosed || publishedClosed)

/-- The close would have the number of another event. -/
def closeConflicts (targetSeq : Nat) (events : OrderedSessionEvents) : Bool :=
  response.closed &&
    ((SortedAssoc.get targetSeq events.pending).any (!·.isClosed) || response.chunks.any (·.seq == targetSeq))

def recoverEvents : RecoverM Bool := do
  match response.failure with
  | some message => throw ("process failed while recovering: ".toList ++ message)
  | none =>
    let targetSeq := response.nextSeq - 1
    let st ← get
    if st.orderedEvents.failure.isSome || st.orderedEvents.closedPublished ||
        targetSeq ≤ st.orderedEvents.lastPublishedSeq then
      pure false
    else
      let exitPending := st.orderedEvents.pending.any fun entry => entry.1 ≤ targetSeq && entry.2.isExited
      let exitKnown := st.orderedEvents.exitPublished || exitPending
      modify (amendExit targetSeq response.sandboxDenied)
      let st ← get
      if closeConflicts response targetSeq st.orderedEvents then
        throw ("process close sequence ".toList ++ numberText targetSeq ++ " conflicts with recovered output".toList)
      else
        let recovered ← response.chunks.foldlM (recoverChunk response targetSeq)
          { exitKnown, publishedClosed := false }
        recoverClosed response targetSeq
        recoverMissing response targetSeq recovered

end SessionState

end Dcode.ExecServer
