import Dcode.Session.RolloutReconstruction

/-!
# Rollout items as they are persisted

The events that the reconstruction of a session passes over are read by others: by the builder of the shown
history and by the scan for the model context. Here they are told apart by what those readers make of them.
-/

namespace Dcode.Session

inductive TurnItem where
  | userMessage
  | plan (id text : Str)
  | reviewMode (id : Str)
  /-- A hook prompt, a command, a dynamic or collab tool call, the activity of a sub-agent or an extension. -/
  | shown (id : Str)
  /-- A message or the reasoning of the agent, a web search, an image, a file change, an MCP call or a compaction. -/
  | hidden
deriving DecidableEq

inductive HistoryEvent where
  | itemStarted (turnId : Str) (item : TurnItem)
  | itemCompleted (turnId : Str) (item : TurnItem)
  | agentMessage (message : Str)
  | agentReasoning (text : Str)
  | agentReasoningRawContent (text : Str)
  | contextCompacted
  | enteredReviewMode (turnId itemId : Option Str)
  | exitedReviewMode (turnId itemId : Option Str)
  | toolCall (turnId : Option Str) (callId : Str)
deriving DecidableEq

/-- An item of a rollout: one that the reconstruction tells apart, or an event that it passes over. -/
inductive PersistedItem where
  | item (item : RolloutItem)
  | event (event : HistoryEvent)

/-- The item as the reconstruction sees it. -/
def PersistedItem.toRolloutItem : PersistedItem → RolloutItem
  | .item rolloutItem => rolloutItem
  | .event _ => .eventMsg .other

/-! ## The turns that the reverse scan keeps -/

/-- The turn whose segment is finalized at an item while no rollback is pending. -/
def ScanState.survivor (st : ScanState) : RolloutItem → Option Str
  | .eventMsg (.turnStarted turnId) =>
    match st.activeSegment with
    | some segment =>
      if turnIdsAreCompatible segment.turnId (some turnId) && st.pendingRollbackTurns == 0 then some turnId else none
    | none => none
  | _ => none

/-- The turns that survive the rollbacks, from the newest on. The scan may stop before it reaches all of them, when it has
found what it looks for. -/
def survivingTurns (ops : RolloutOps) : List RolloutItem → List RolloutItem → ScanState → List Str
  | [], _, st =>
    -- a segment that is still open at the end is finalized as well
    match st.activeSegment with
    | some segment => if st.pendingRollbackTurns = 0 then segment.turnId.toList else []
    | none => []
  | item :: older, newer, st =>
    (st.survivor item).toList ++ survivingTurns ops older (item :: newer) (scanItem ops st item newer)

end Dcode.Session
