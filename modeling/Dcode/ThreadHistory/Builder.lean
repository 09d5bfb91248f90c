import Dcode.Session.PersistedItem
import Dcode.Session.TurnLog

/-!
# The shown history of a thread

`ThreadHistoryBuilder` of `codex-rs/app-server-protocol/src/protocol/thread_history.rs`: the turns that are
shown for a rollout, read forwards. Of an item of a turn its id is kept, and the texts of reasoning, which later events
extend; the status, error and times of a turn are left out, and so is the tracking of changes.
-/

namespace Dcode.ThreadHistory

open Protocol Session

inductive ThreadItem where
  | reasoning (id : Str) (summary content : List Str)
  | other (id : Str)
deriving DecidableEq

def ThreadItem.id : ThreadItem → Str
  | .reasoning id _ _ => id
  | .other id => id

structure ShownTurn where
  id : Str
  items : List ThreadItem
deriving DecidableEq

structure PendingTurn where
  id : Str
  items : List ThreadItem := []
  openedExplicitly : Bool := false
  sawCompaction : Bool := false
  rolloutStartIndex : Nat
deriving DecidableEq

structure ThreadHistoryBuilder where
  turns : List ShownTurn := []
  currentTurn : Option PendingTurn := none
  nextItemIndex : Nat := 1
  currentRolloutIndex : Nat := 0
  nextRolloutIndex : Nat := 0

/-- `parse_hook_prompt_message` for the id and the content of a message, with the id of the prompt it finds. -/
abbrev ParseHookPrompt := Option Str → List ContentItem → Option Str

def upsertTurnItem : List ThreadItem → ThreadItem → List ThreadItem
  | [], item => [item]
  | existing :: items, item =>
    if existing.id = item.id then item :: items else existing :: upsertTurnItem items item

/-- The first turn with the id is changed. -/
def updateTurn (turnId : Str) (f : ShownTurn → ShownTurn) : List ShownTurn → List ShownTurn
  | [] => []
  | turn :: turns => if turn.id = turnId then f turn :: turns else turn :: updateTurn turnId f turns

namespace ThreadHistoryBuilder

variable (self : ThreadHistoryBuilder)

def finishCurrentTurn : ThreadHistoryBuilder :=
  match self.currentTurn with
  | none => self
  | some turn =>
    if turn.items.isEmpty && !turn.openedExplicitly && !turn.sawCompaction then { self with currentTurn := none }
    else { self with currentTurn := none, turns := self.turns ++ [⟨turn.id, turn.items⟩] }

/-- `new_turn`, for an item of a rollout. -/
def newTurn (id : Option Str) : PendingTurn where
  id := id.getD ("rollout-".toList ++ (toString self.currentRolloutIndex).toList)
  rolloutStartIndex := self.currentRolloutIndex

/-- `ensure_turn`, and what is done with the turn. -/
def withTurn (f : PendingTurn → PendingTurn) : ThreadHistoryBuilder :=
  { self with currentTurn := some (f (self.currentTurn.getD (self.newTurn none))) }

def nextItemId : Str × ThreadHistoryBuilder :=
  ("item-".toList ++ (toString self.nextItemIndex).toList, { self with nextItemIndex := self.nextItemIndex + 1 })

def pushItemInCurrentTurn (item : ThreadItem) : ThreadHistoryBuilder :=
  self.withTurn fun turn => { turn with items := turn.items ++ [item] }

/-- `push_item_in_current_turn` with a new id. -/
def pushNewItem (item : Str → ThreadItem) : ThreadHistoryBuilder :=
  self.nextItemId.2.pushItemInCurrentTurn (item self.nextItemId.1)

def upsertItemInCurrentTurn (item : ThreadItem) : ThreadHistoryBuilder :=
  self.withTurn fun turn => { turn with items := upsertTurnItem turn.items item }

def upsertItemInTurnId (turnId : Str) (item : ThreadItem) : ThreadHistoryBuilder :=
  let older := { self with
    turns := updateTurn turnId (fun turn => { turn with items := upsertTurnItem turn.items item }) self.turns }
  match self.currentTurn with
  | some turn =>
    if turn.id = turnId then
      { self with currentTurn := some { turn with items := upsertTurnItem turn.items item } }
    else older
  | none => older

def upsertReviewModeItem (turnId : Option Str) (item : ThreadItem) : ThreadHistoryBuilder :=
  match turnId with
  | none => self.upsertItemInCurrentTurn item
  | some turnId =>
    let known := self.currentTurn.any (·.id == turnId) || self.turns.any (·.id == turnId)
    let opened :=
      if known then self
      else { self.finishCurrentTurn with currentTurn := some (self.finishCurrentTurn.newTurn (some turnId)) }
    opened.upsertItemInTurnId turnId item

def handleUserMessage : ThreadHistoryBuilder :=
  let closed :=
    if self.currentTurn.any fun turn => !turn.openedExplicitly && !(turn.sawCompaction && turn.items.isEmpty) then
      self.finishCurrentTurn
    else self
  closed.pushNewItem .other

/-- `handle_agent_reasoning` and `handle_agent_reasoning_raw_content`: the last item takes the text if it is reasoning. -/
def handleReasoning (text : Str) (extend : List Str × List Str → List Str × List Str) : ThreadHistoryBuilder :=
  if text.isEmpty then self
  else
    let ensured := self.withTurn id
    match ensured.currentTurn.bind fun turn => turn.items.getLast? with
    | some (.reasoning id summary content) =>
      let extended := extend (summary, content)
      ensured.withTurn fun turn =>
        { turn with items := turn.items.dropLast ++ [.reasoning id extended.1 extended.2] }
    | _ => ensured.pushNewItem fun id => .reasoning id (extend ([], [])).1 (extend ([], [])).2

def handleMaterializedItemLifecycle (turnId : Str) (item : TurnItem) : ThreadHistoryBuilder :=
  match item with
  | .plan id text => if text.isEmpty then self else self.upsertItemInTurnId turnId (.other id)
  | .shown id => self.upsertItemInTurnId turnId (.other id)
  | .reviewMode id => self.upsertReviewModeItem (some turnId) (.other id)
  | .userMessage => self
  | .hidden => self

def handleReviewMode (turnId itemId : Option Str) : ThreadHistoryBuilder :=
  match itemId with
  | some id => self.upsertReviewModeItem turnId (.other id)
  | none => self.nextItemId.2.upsertReviewModeItem turnId (.other self.nextItemId.1)

def handleTurnStarted (turnId : Str) : ThreadHistoryBuilder :=
  let finished := self.finishCurrentTurn
  { finished with currentTurn := some { finished.newTurn (some turnId) with openedExplicitly := true } }

def handleTurnComplete (turnId : Str) : ThreadHistoryBuilder :=
  if self.currentTurn.any (·.id == turnId) then self.finishCurrentTurn
  else if self.turns.any (·.id == turnId) then self
  else self.finishCurrentTurn

def handleThreadRollback (numTurns : Nat) : ThreadHistoryBuilder :=
  let finished := self.finishCurrentTurn
  let turns := if numTurns ≥ finished.turns.length then [] else finished.turns.take (finished.turns.length - numTurns)
  { finished with turns := turns, nextItemIndex := (turns.map (·.items.length)).sum + 1 }

def handleHistoryEvent : HistoryEvent → ThreadHistoryBuilder
  | .itemStarted turnId item => self.handleMaterializedItemLifecycle turnId item
  | .itemCompleted turnId item => self.handleMaterializedItemLifecycle turnId item
  | .agentMessage message => if message.isEmpty then self else self.pushNewItem .other
  | .agentReasoning text => self.handleReasoning text fun texts => (texts.1 ++ [text], texts.2)
  | .agentReasoningRawContent text => self.handleReasoning text fun texts => (texts.1, texts.2 ++ [text])
  | .contextCompacted => self.pushNewItem .other
  | .enteredReviewMode turnId itemId => self.handleReviewMode turnId itemId
  | .exitedReviewMode turnId itemId => self.handleReviewMode turnId itemId
  | .toolCall (some turnId) callId => self.upsertItemInTurnId turnId (.other callId)
  | .toolCall none callId => self.upsertItemInCurrentTurn (.other callId)

/-- `handle_event` for the others. -/
def handleEvent : EventMsg → ThreadHistoryBuilder
  | .userMessage => self.handleUserMessage
  | .threadRolledBack numTurns => self.handleThreadRollback numTurns
  | .turnStarted turnId => self.handleTurnStarted turnId
  | .turnComplete turnId => self.handleTurnComplete turnId
  -- only the status of the turn changes
  | .turnAborted _ => self
  | .other => self

def handleResponseItem (parse : ParseHookPrompt) (self : ThreadHistoryBuilder) : ResponseItem → ThreadHistoryBuilder
  | .message id role content _ _ =>
    if role = "user".toList then
      match parse id content with
      | some promptId => self.pushItemInCurrentTurn (.other promptId)
      | none => self
    else self
  | _ => self

/-- What `handle_rollout_item` does with an item. -/
def dispatch (parse : ParseHookPrompt) (self : ThreadHistoryBuilder) : PersistedItem → ThreadHistoryBuilder
  | .event event => self.handleHistoryEvent event
  | .item (.eventMsg event) => self.handleEvent event
  | .item (.compacted _) => self.withTurn fun turn => { turn with sawCompaction := true }
  | .item (.responseItem item) => self.handleResponseItem parse item
  | .item _ => self

def handleRolloutItem (parse : ParseHookPrompt) (self : ThreadHistoryBuilder) (item : PersistedItem) :
    ThreadHistoryBuilder :=
  dispatch parse
    { self with currentRolloutIndex := self.nextRolloutIndex, nextRolloutIndex := self.nextRolloutIndex + 1 } item

end ThreadHistoryBuilder

def buildTurnsFromRolloutItems (parse : ParseHookPrompt) (items : List PersistedItem) : List ShownTurn :=
  (items.foldl (ThreadHistoryBuilder.handleRolloutItem parse) {}).finishCurrentTurn.turns

/-! ## Rollouts of explicit turns -/

/-- An event of the review mode names the turn, or none. -/
def ReviewsTurn (turnId : Str) : HistoryEvent → Prop
  | .itemStarted id (.reviewMode _) => id = turnId
  | .itemCompleted id (.reviewMode _) => id = turnId
  | .enteredReviewMode id _ => id = none ∨ id = some turnId
  | .exitedReviewMode id _ => id = none ∨ id = some turnId
  | _ => True

/-- The item begins or ends no turn and rolls none back. -/
def isInsideTurn : PersistedItem → Bool
  | .item (.eventMsg (.turnStarted _)) => false
  | .item (.eventMsg (.turnComplete _)) => false
  | .item (.eventMsg (.threadRolledBack _)) => false
  | _ => true

/-- A turn that is begun and completed under its id. -/
structure ExplicitTurn where
  id : Str
  body : List PersistedItem
  isInside : ∀ item ∈ body, isInsideTurn item
  reviews : ∀ event, .event event ∈ body → ReviewsTurn id event

/-- A part of a rollout of explicit turns. -/
inductive TurnBlock where
  | turn (turn : ExplicitTurn)
  | rolledBack (numTurns : Nat)

def TurnBlock.items : TurnBlock → List PersistedItem
  | .turn explicit =>
    .item (.eventMsg (.turnStarted explicit.id)) :: (explicit.body ++ [.item (.eventMsg (.turnComplete explicit.id))])
  | .rolledBack numTurns => [.item (.eventMsg (.threadRolledBack numTurns))]

def turnRollout (blocks : List TurnBlock) : List PersistedItem := blocks.flatMap TurnBlock.items

/-- The turn of a part. -/
def TurnBlock.turn? : TurnBlock → Option ExplicitTurn
  | .turn explicit => some explicit
  | .rolledBack _ => none

/-- The ids of all turns of a rollout. -/
def turnIds (blocks : List TurnBlock) : List Str := (blocks.filterMap TurnBlock.turn?).map (·.id)

/-- The turns that are shown. -/
def shownTurnIds (parse : ParseHookPrompt) (blocks : List TurnBlock) : List Str :=
  (buildTurnsFromRolloutItems parse (turnRollout blocks)).map (·.id)

def keptTurnIds (ops : RolloutOps) (blocks : List TurnBlock) : List Str :=
  let items := (turnRollout blocks).map PersistedItem.toRolloutItem
  survivingTurns ops items.reverse [] { rolloutSuffix := items }

/-! ## What a rollback takes back -/

/-- A turn is added, or the newest ones are taken back. -/
def TurnBlock.entry : TurnBlock → RollbackLog.Entry ExplicitTurn
  | .turn explicit => .push explicit
  | .rolledBack numTurns => .pop numTurns

/-- The turns that are left when each rollback takes back the newest turns of any kind, from the newest on. -/
def liveTurns (blocks : List TurnBlock) : List ExplicitTurn := RollbackLog.run (blocks.map TurnBlock.entry) []

def ExplicitTurn.hasInstruction (ops : RolloutOps) (turn : ExplicitTurn) : Bool :=
  (turn.body.map PersistedItem.toRolloutItem).any (isUserInstruction ops)

/-- A turn without an instruction is taken back only together with every turn before it. -/
def TakesBackInstructions (ops : RolloutOps) (blocks : List TurnBlock) : Prop :=
  ∀ before turn after, blocks = before ++ .turn turn :: after → turn.hasInstruction ops = false →
    turn ∉ liveTurns blocks → ∀ older, .turn older ∈ before → older ∉ liveTurns blocks

end Dcode.ThreadHistory
