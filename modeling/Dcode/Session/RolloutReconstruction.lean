import Dcode.Context.Compact

/-!
# Rebuilding a session from its rollout

`Session::reconstruct_history_from_rollout` of `codex-rs/core/src/session/rollout_reconstruction.rs`: a scan from the
newest item to the oldest that finds the checkpoint to start from and the metadata to resume with, and a replay of
the items behind that checkpoint.
-/

namespace Dcode.Session

open Protocol WorldState Context

/-! ## Rollout items -/

structure CompactedItem where
  message : Str := []
  replacementHistory : Option (List ResponseItem) := none
  windowNumber : Option Nat := none
  firstWindowId : Option Str := none
  previousWindowId : Option Str := none
  windowId : Option Str := none
deriving DecidableEq

inductive EventMsg where
  | userMessage
  | threadRolledBack (numTurns : Nat)
  | turnStarted (turnId : Str)
  | turnComplete (turnId : Str)
  | turnAborted (turnId : Option Str)
  | other
deriving DecidableEq

/-- `RolloutItem`. Of the metadata of the session only the id of its context window is read. -/
inductive RolloutItem where
  | sessionMeta (contextWindowId : Option Str)
  | responseItem (item : ResponseItem)
  | interAgentCommunication (communication : InterAgentCommunication)
  | interAgentCommunicationMetadata (triggerTurn : Bool)
  | compacted (item : CompactedItem)
  | turnContext (item : TurnContextItem)
  | worldState (item : WorldStateItem Str)
  | eventMsg (event : EventMsg)

/-! ## State of the scan -/

abbrev Uuid := BitVec 128

/-- The libraries that the reconstruction calls: the texts of the history, and `Uuid::parse_str`. -/
structure RolloutOps extends ContextOps where
  uuidParseStr : Str → Option Uuid

/-- `parse_uuid_v7`. The version is the high half of the seventh byte. -/
def parseUuidV7 (ops : RolloutOps) (value : Str) : Option Uuid :=
  (ops.uuidParseStr value).filter fun uuid => (uuid >>> 76) &&& 0xf == 7

structure ReconstructedWindow where
  number : Nat
  firstId : Option Uuid := none
  previousId : Option Uuid := none
  id : Option Uuid := none
deriving DecidableEq

structure PreviousTurnSettings where
  model : Str
  compHash : Option Str
  realtimeActive : Option Bool
deriving DecidableEq

inductive TurnReferenceContextItem where
  | neverSet
  | cleared
  | latest (item : TurnContextItem)
deriving DecidableEq

structure ActiveReplaySegment where
  turnId : Option Str := none
  countsAsUserTurn : Bool := false
  previousTurnSettings : Option PreviousTurnSettings := none
  referenceContextItem : TurnReferenceContextItem := .neverSet
  worldStateReplay : List RolloutItem := []
  baseReplacementHistory : Option (List ResponseItem) := none
  window : Option ReconstructedWindow := none

/-- The variables of the scan. -/
structure ScanState where
  baseReplacementHistory : Option (List ResponseItem) := none
  previousTurnSettings : Option PreviousTurnSettings := none
  referenceContextItem : TurnReferenceContextItem := .neverSet
  worldStateReplay : List RolloutItem := []
  window : Option ReconstructedWindow := none
  pendingRollbackTurns : Nat := 0
  rolloutSuffix : List RolloutItem
  activeSegment : Option ActiveReplaySegment := none

def turnIdsAreCompatible (activeTurnId itemTurnId : Option Str) : Bool :=
  match activeTurnId, itemTurnId with
  | some turnId, some itemTurnId => itemTurnId == turnId
  | _, _ => true

def finalizeActiveSegment (st : ScanState) (segment : ActiveReplaySegment) : ScanState :=
  if 0 < st.pendingRollbackTurns then
    if segment.countsAsUserTurn then { st with pendingRollbackTurns := st.pendingRollbackTurns - 1 } else st
  else
    { st with
      worldStateReplay := st.worldStateReplay ++ segment.worldStateReplay
      baseReplacementHistory := st.baseReplacementHistory.or segment.baseReplacementHistory
      window := st.window.or segment.window
      previousTurnSettings :=
        if st.previousTurnSettings.isNone && segment.countsAsUserTurn then segment.previousTurnSettings
        else st.previousTurnSettings
      referenceContextItem :=
        if st.referenceContextItem == .neverSet &&
          (segment.countsAsUserTurn || segment.referenceContextItem == .cleared) then
          segment.referenceContextItem
        else st.referenceContextItem }

/-! ## The scan -/

section

variable (ops : RolloutOps)

/-- What a compaction makes of the segment it is in. -/
def ActiveReplaySegment.compact (segment : ActiveReplaySegment) (compacted : CompactedItem) : ActiveReplaySegment :=
  { segment with
    worldStateReplay := segment.worldStateReplay ++ [.compacted compacted]
    window := segment.window.or (compacted.windowNumber.map fun number =>
      { number
        firstId := compacted.firstWindowId.bind (parseUuidV7 ops)
        previousId := compacted.previousWindowId.bind (parseUuidV7 ops)
        id := compacted.windowId.bind (parseUuidV7 ops) })
    referenceContextItem :=
      if segment.referenceContextItem == .neverSet then .cleared else segment.referenceContextItem
    baseReplacementHistory := segment.baseReplacementHistory.or compacted.replacementHistory }

def ActiveReplaySegment.attach (segment : ActiveReplaySegment) (ctx : TurnContextItem) : ActiveReplaySegment :=
  let segment := { segment with turnId := segment.turnId.or ctx.turnId }
  if turnIdsAreCompatible segment.turnId ctx.turnId then
    { segment with
      previousTurnSettings := some ⟨ctx.model, ctx.compHash, ctx.realtimeActive⟩
      referenceContextItem :=
        if segment.referenceContextItem == .neverSet then .latest ctx else segment.referenceContextItem }
  else segment

/-- One item of the scan, with the items that are newer. -/
def scanItem (st : ScanState) (item : RolloutItem) (newer : List RolloutItem) : ScanState :=
  let segment := st.activeSegment.getD {}
  match item with
  | .compacted compacted =>
    { st with
      activeSegment := some (segment.compact ops compacted)
      rolloutSuffix :=
        if segment.baseReplacementHistory.isNone && compacted.replacementHistory.isSome then newer
        else st.rolloutSuffix }
  | .eventMsg (.threadRolledBack numTurns) =>
    { st with pendingRollbackTurns := st.pendingRollbackTurns + numTurns }
  | .eventMsg (.turnComplete turnId) =>
    { st with activeSegment := some { segment with turnId := segment.turnId.or (some turnId) } }
  | .eventMsg (.turnAborted turnId) =>
    match st.activeSegment with
    | some segment => { st with activeSegment := some { segment with turnId := segment.turnId.or turnId } }
    | none => { st with activeSegment := turnId.map fun turnId => { turnId := some turnId } }
  | .eventMsg .userMessage => { st with activeSegment := some { segment with countsAsUserTurn := true } }
  | .turnContext ctx => { st with activeSegment := some (segment.attach ctx) }
  | .worldState worldState =>
    { st with
      activeSegment := some
        { segment with worldStateReplay := segment.worldStateReplay ++ [.worldState worldState] } }
  | .eventMsg (.turnStarted turnId) =>
    match st.activeSegment with
    | some segment =>
      if turnIdsAreCompatible segment.turnId (some turnId) then
        finalizeActiveSegment { st with activeSegment := none } segment
      else st
    | none => st
  | .responseItem responseItem =>
    { st with
      activeSegment := some
        { segment with
          countsAsUserTurn := segment.countsAsUserTurn || isUserTurnBoundary ops.toContextOps responseItem } }
  | .interAgentCommunication _ =>
    { st with activeSegment := some { segment with countsAsUserTurn := true } }
  | .eventMsg .other => st
  | .sessionMeta _ => st
  | .interAgentCommunicationMetadata _ => st

def ScanState.isComplete (st : ScanState) : Bool :=
  st.baseReplacementHistory.isSome && st.previousTurnSettings.isSome &&
    st.referenceContextItem != .neverSet

def scanLoop : List RolloutItem → List RolloutItem → ScanState → ScanState
  | [], _, st => st
  | item :: older, newer, st =>
    let st := scanItem ops st item newer
    if st.isComplete then st else scanLoop older (item :: newer) st

/-- The whole scan, with the segment that is still open at its end. -/
def scan (rolloutItems : List RolloutItem) : ScanState :=
  let st := scanLoop ops rolloutItems.reverse [] { rolloutSuffix := rolloutItems }
  match st.activeSegment with
  | some segment => finalizeActiveSegment { st with activeSegment := none } segment
  | none => st

/-! ## The replay -/

/-- One item of the replay of the history; the flag says that a compaction without a replacement was seen. -/
def replayItem (st : ContextManager × Bool) : RolloutItem → ContextManager × Bool
  | .responseItem responseItem => (st.1.recordItem ops.toContextOps responseItem, st.2)
  | .interAgentCommunication communication =>
    (st.1.recordItem ops.toContextOps communication.toModelInputItem, st.2)
  | .compacted compacted =>
    match compacted.replacementHistory with
    | some replacementHistory => (st.1.replace replacementHistory, st.2)
    | none =>
      let userMessages := collectUserMessages ops.toContextOps st.1.items
      (st.1.replace (buildCompactedHistory [] userMessages compacted.message), true)
  | .eventMsg (.threadRolledBack numTurns) =>
    (st.1.dropLastNUserTurns ops.toContextOps numTurns, st.2)
  | _ => st

/-- The replay of the world state over the items that were collected for it. -/
def replayWorldState (baseline : Option (WorldStateSnapshot Str)) : RolloutItem → Option (WorldStateSnapshot Str)
  | .compacted _ => none
  | .worldState worldState => WorldState.replayItem baseline worldState
  | _ => baseline

structure RolloutReconstruction where
  history : List ResponseItem
  previousTurnSettings : Option PreviousTurnSettings
  referenceContextItem : Option TurnContextItem
  worldStateBaseline : Option (WorldStateSnapshot Str)
  windowNumber : Nat
  firstWindowId : Option Uuid
  previousWindowId : Option Uuid
  windowId : Option Uuid

def initialWindow? : RolloutItem → Option ReconstructedWindow
  | .sessionMeta contextWindowId =>
    (contextWindowId.bind (parseUuidV7 ops)).map fun id => { number := 0, firstId := some id, id := some id }
  | _ => none

/-- A compaction from before windows were numbered. -/
def isLegacyCompaction : RolloutItem → Bool
  | .compacted compacted => compacted.windowNumber.isNone
  | _ => false

def isCompacted : RolloutItem → Bool
  | .compacted _ => true
  | _ => false

def reconstructHistoryFromRollout (rolloutItems : List RolloutItem) : RolloutReconstruction :=
  let initialWindow :=
    if rolloutItems.any isLegacyCompaction then none else rolloutItems.findSome? (initialWindow? ops)
  let st := scan ops rolloutItems
  let history : ContextManager :=
    match st.baseReplacementHistory with
    | some base => ContextManager.replace {} base
    | none => {}
  let (history, sawLegacyCompaction) := st.rolloutSuffix.foldl (replayItem ops) (history, false)
  let referenceContextItem :=
    match st.referenceContextItem with
    | .latest item => if sawLegacyCompaction then none else some item
    | _ => none
  let window := (st.window.or initialWindow).getD { number := rolloutItems.countP isCompacted }
  { history := history.items
    previousTurnSettings := st.previousTurnSettings
    referenceContextItem := referenceContextItem
    worldStateBaseline := st.worldStateReplay.reverse.foldl replayWorldState none
    windowNumber := window.number
    firstWindowId := window.firstId
    previousWindowId := window.previousId
    windowId := window.id }

end

end Dcode.Session
