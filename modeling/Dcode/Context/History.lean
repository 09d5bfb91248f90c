import Dcode.Protocol.ResponseItem
import Dcode.WorldState.Snapshot

/-!
# The conversation history

`ContextManager` of `codex-rs/core/src/context_manager/history.rs` with the tests on message contents of
`codex-rs/core/src/event_mapping.rs`: recording items, replacing the history and rolling turns back. Token accounting
is left out.
-/

namespace Dcode.Context

open Protocol WorldState
open Str (trimStart toAsciiLowercase)

/-- What the history asks of texts: whether one is a hook prompt or one of the standard contextual fragments, the
message between agents it holds (read by `serde_json`), and how tool outputs are cut to a budget. -/
structure ContextOps where
  isHookPrompt : Str → Bool
  isStandardContextualUserText : Str → Bool
  interAgentFromStr : Str → Option InterAgentCommunication
  truncateFunctionOutputPayload : FunctionCallOutputPayload → FunctionCallOutputPayload

/-! ## Message contents -/

def contextualDeveloperPrefixes : List Str :=
  ["<permissions instructions>".toList, "Approved command prefix saved:".toList, "<model_switch>".toList,
    "<apps_instructions>".toList, "<collaboration_mode>".toList, "<multi_agent_mode>".toList,
    "<environments_instructions>".toList, "<git_attribution>".toList, "<plugins_instructions>".toList,
    "<realtime_conversation>".toList, "<skills_instructions>".toList, "<tools>".toList,
    "<personality_spec>".toList, "<token_budget>".toList, "<context_window>".toList,
    "<context_window_guidance>".toList, "<rollout_budget>".toList]

/-- `is_contextual_dev_fragment`. The markers are ASCII, so that a candidate that equals one but for its case has as
many characters as bytes. -/
def isContextualDevFragment : ContentItem → Bool
  | .inputText text =>
    let trimmed := trimStart text
    contextualDeveloperPrefixes.any fun marker =>
      toAsciiLowercase (trimmed.take marker.length) == toAsciiLowercase marker
  | _ => false

def isContextualDevMessageContent (message : List ContentItem) : Bool :=
  message.any isContextualDevFragment

def hasNonContextualDevMessageContent (message : List ContentItem) : Bool :=
  message.any fun contentItem => !isContextualDevFragment contentItem

section

variable (ops : ContextOps)

def isContextualUserFragment : ContentItem → Bool
  | .inputText text => ops.isHookPrompt text || ops.isStandardContextualUserText text
  | _ => false

def isContextualUserMessageContent (message : List ContentItem) : Bool :=
  message.any (isContextualUserFragment ops)

def interAgentFromMessageContent : List ContentItem → Option InterAgentCommunication
  | [.inputText text] => ops.interAgentFromStr text
  | [.outputText text] => ops.interAgentFromStr text
  | _ => none

def isUserTurnBoundary : ResponseItem → Bool
  | .agentMessage .. => true
  | .message _ role content _ _ =>
    (role == "user".toList && !isContextualUserMessageContent ops content) ||
      (role == "assistant".toList && (interAgentFromMessageContent ops content).isSome)
  | _ => false

def userMessagePositions (items : List ResponseItem) : List Nat :=
  items.findIdxs (isUserTurnBoundary ops)

end

def isApiMessage : ResponseItem → Bool
  | .message _ role _ _ _ => role != "system".toList
  | .compactionTrigger => false
  | .other => false
  | _ => true

/-! ## The history -/

/-- `TurnContextItem`, of which the history is rebuilt with the turn and the model settings. -/
structure TurnContextItem where
  turnId : Option Str := none
  model : Str
  compHash : Option Str := none
  realtimeActive : Option Bool := none
deriving DecidableEq

structure ContextManager where
  items : List ResponseItem := []
  historyVersion : Nat := 0
  referenceContextItem : Option TurnContextItem := none
  worldStateBaseline : Option (WorldStateSnapshot Str) := none

namespace ContextManager

section

variable (ops : ContextOps)

def processItem : ResponseItem → ResponseItem
  | .functionCallOutput id callId output metadata =>
    .functionCallOutput id callId (ops.truncateFunctionOutputPayload output) metadata
  | .customToolCallOutput id callId name output metadata =>
    .customToolCallOutput id callId name (ops.truncateFunctionOutputPayload output) metadata
  | item => item

/-- `ContextManager::record_items` for one item. -/
def recordItem (self : ContextManager) (item : ResponseItem) : ContextManager :=
  if isApiMessage item then { self with items := self.items ++ [processItem ops item] } else self

end

/-- `ContextManager::replace`. The version is a `u64` that saturates. -/
def replace (self : ContextManager) (items : List ResponseItem) : ContextManager :=
  { self with
    items := items
    historyVersion := min (self.historyVersion + 1) (2 ^ 64 - 1)
    worldStateBaseline := none }

section

variable (ops : ContextOps)

def trimPreTurnContextUpdates (self : ContextManager) (snapshot : List ResponseItem)
    (firstInstructionTurnIdx : Nat) : Nat → ContextManager × Nat
  | 0 => (self, 0)
  | cut + 1 =>
    if firstInstructionTurnIdx < cut + 1 then
      match snapshot[cut]? with
      | some (.message _ role content _ _) =>
        if role == "developer".toList && isContextualDevMessageContent content then
          let self :=
            if hasNonContextualDevMessageContent content then { self with referenceContextItem := none }
            else self
          trimPreTurnContextUpdates self snapshot firstInstructionTurnIdx cut
        else if role == "user".toList && isContextualUserMessageContent ops content then
          trimPreTurnContextUpdates self snapshot firstInstructionTurnIdx cut
        else (self, cut + 1)
      | _ => (self, cut + 1)
    else (self, cut + 1)

def dropLastNUserTurns (self : ContextManager) (numTurns : Nat) : ContextManager :=
  if numTurns = 0 then self
  else
    let snapshot := self.items
    let userPositions := userMessagePositions ops snapshot
    match userPositions.head? with
    | none => self.replace snapshot
    | some firstInstructionTurnIdx =>
      let cutIdx :=
        if userPositions.length ≤ numTurns then firstInstructionTurnIdx
        else userPositions.getD (userPositions.length - numTurns) 0
      let (self, cutIdx) := self.trimPreTurnContextUpdates ops snapshot firstInstructionTurnIdx cutIdx
      self.replace (snapshot.take cutIdx)

end

end ContextManager

end Dcode.Context
