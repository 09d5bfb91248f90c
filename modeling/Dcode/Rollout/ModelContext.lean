import Dcode.Session.PersistedItem
import Dcode.Session.TurnLog

/-!
# The scan for the model context

`ModelContextScan` of `codex-rs/rollout/src/model_context.rs`: a reader of a rollout from its newest item on that stops
at a suffix from which the context of the model can be rebuilt. Last, the rollouts for which it is made: turns, each
begun under its id, and what may stand between them.
-/

namespace Dcode.Rollout

open Protocol Context Session

inductive ModelContextScanProgress where
  | continue
  | complete
deriving DecidableEq

structure ActiveTurnSegment where
  turnId : Option Str := none
  hasUserTurn : Bool := false
  hasTurnContext : Bool := false
deriving DecidableEq

structure ModelContextScan where
  itemsNewestFirst : List PersistedItem := []
  sawCompaction : Bool := false
  sawCompletedTurnContext : Bool := false
  mustScanToStart : Bool := false
  activeSegment : ActiveTurnSegment := {}

def responseItemCountsAsUserTurn (ops : RolloutOps) : ResponseItem → Bool
  | .agentMessage .. => true
  | .message _ role content _ _ =>
    role == "assistant".toList && (interAgentFromMessageContent ops.toContextOps content).isSome
  | _ => false

namespace ModelContextScan

def hasBoundedCutoff (self : ModelContextScan) : Bool :=
  !self.mustScanToStart && self.sawCompaction && self.sawCompletedTurnContext

def finalizeActiveSegment (self : ModelContextScan) : ModelContextScan :=
  { self with
    sawCompletedTurnContext := self.sawCompletedTurnContext ||
      (self.activeSegment.hasUserTurn && self.activeSegment.hasTurnContext)
    activeSegment := {} }

section

variable (ops : RolloutOps)

/-- What `observe` notes of an item. -/
def note (self : ModelContextScan) (item : PersistedItem) : ModelContextScan :=
  let segment := self.activeSegment
  match item with
  | .item (.compacted compacted) =>
    if compacted.replacementHistory.isNone || compacted.windowNumber.isNone then
      { self with mustScanToStart := true }
    else { self with sawCompaction := true }
  | .item (.eventMsg (.threadRolledBack _)) => { self with mustScanToStart := true }
  | .event (.itemCompleted turnId item) =>
    let segment := { segment with turnId := segment.turnId.or (some turnId) }
    { self with
      activeSegment :=
        if turnIdsAreCompatible segment.turnId (some turnId) then
          { segment with hasUserTurn := segment.hasUserTurn || item == .userMessage }
        else segment }
  | .item (.eventMsg (.turnComplete turnId)) =>
    { self with activeSegment := { segment with turnId := segment.turnId.or (some turnId) } }
  | .item (.eventMsg (.turnAborted turnId)) =>
    { self with activeSegment := { segment with turnId := segment.turnId.or turnId } }
  | .item (.eventMsg (.turnStarted turnId)) =>
    if turnIdsAreCompatible segment.turnId (some turnId) then self.finalizeActiveSegment else self
  | .item (.turnContext context) =>
    let segment := { segment with turnId := segment.turnId.or context.turnId }
    { self with
      activeSegment :=
        if turnIdsAreCompatible segment.turnId context.turnId then { segment with hasTurnContext := true }
        else segment }
  | .item (.responseItem responseItem) =>
    { self with
      activeSegment :=
        { segment with hasUserTurn := segment.hasUserTurn || responseItemCountsAsUserTurn ops responseItem } }
  | .item (.interAgentCommunication _) => { self with activeSegment := { segment with hasUserTurn := true } }
  | .item (.eventMsg .userMessage) => { self with activeSegment := { segment with hasUserTurn := true } }
  | _ => self

def observe (self : ModelContextScan) (item : PersistedItem) : ModelContextScan × ModelContextScanProgress :=
  if self.mustScanToStart then (self, .continue)
  else
    let noted := self.note ops item
    (noted, if noted.hasBoundedCutoff then .complete else .continue)

def push (self : ModelContextScan) (item : PersistedItem) : ModelContextScan × ModelContextScanProgress :=
  let (observed, progress) := self.observe ops item
  ({ observed with itemsNewestFirst := observed.itemsNewestFirst ++ [item] }, progress)

def pushUntilComplete : List PersistedItem → ModelContextScan → ModelContextScan
  | [], self => self
  | item :: older, self =>
    let (pushed, progress) := self.push ops item
    match progress with
    | .complete => pushed
    | .continue => pushUntilComplete older pushed

end

def finish (self : ModelContextScan) (sessionMeta : Option Str) : List PersistedItem :=
  let items := self.itemsNewestFirst.reverse
  if self.hasBoundedCutoff then .item (.sessionMeta sessionMeta) :: items else items

end ModelContextScan

/-- The items that the scan of a rollout returns. -/
def scanModelContext (ops : RolloutOps) (sessionMeta : Option Str) (items : List PersistedItem) : List PersistedItem :=
  (ModelContextScan.pushUntilComplete ops items.reverse {}).finish sessionMeta

/-! ## Rollouts of recorded turns -/

/-- The turn that an item names. -/
def namedTurn : PersistedItem → Option Str
  | .item (.eventMsg (.turnComplete turnId)) => some turnId
  | .item (.eventMsg (.turnAborted turnId)) => turnId
  | .item (.turnContext context) => context.turnId
  | .event (.itemCompleted turnId _) => some turnId
  | _ => none

/-- The item neither begins a turn nor rolls one back. -/
def isBodyItem : PersistedItem → Bool
  | .item (.eventMsg (.turnStarted _)) => false
  | .item (.eventMsg (.threadRolledBack _)) => false
  | _ => true

/-- `ItemCompleted` for a message of the user. -/
def isCompletedUserMessage : PersistedItem → Bool
  | .event (.itemCompleted _ item) => item == .userMessage
  | _ => false

/-- The item belongs to no turn: metadata, or an event that neither scan looks at. -/
def isBetweenTurns : PersistedItem → Bool
  | .event (.itemCompleted _ _) => false
  | item => isOutsideTurn item.toRolloutItem

/-- A turn with what follows its beginning, which may lack its end: every item that names a turn names this one, and a
completed message of the user comes with an item that makes the turn one of the user. -/
structure RecordedTurn (ops : RolloutOps) where
  id : Str
  body : List PersistedItem
  isBodyItem : ∀ item ∈ body, isBodyItem item
  named : ∀ item ∈ body, ∀ turnId, namedTurn item = some turnId → turnId = id
  marked : body.any isCompletedUserMessage →
    (body.map PersistedItem.toRolloutItem).any (isUserInstruction ops)

/-- A part of a rollout. -/
inductive RecordedBlock (ops : RolloutOps) where
  | turn (turn : RecordedTurn ops)
  | rolledBack (numTurns : Nat)
  | between (item : PersistedItem) (h : isBetweenTurns item)

variable {ops : RolloutOps}

/-- The items of a part. -/
def RecordedBlock.items : RecordedBlock ops → List PersistedItem
  | .turn recorded => .item (.eventMsg (.turnStarted recorded.id)) :: recorded.body
  | .rolledBack numTurns => [.item (.eventMsg (.threadRolledBack numTurns))]
  | .between item _ => [item]

/-- The rollout made of the parts. -/
def recordedRollout (blocks : List (RecordedBlock ops)) : List PersistedItem := blocks.flatMap RecordedBlock.items

end Dcode.Rollout
