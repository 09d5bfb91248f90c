import Dcode.Lib.Json

/-!
# Response items

The conversation items of `codex-rs/protocol/src/models.rs` and the messages between agents of
`codex-rs/protocol/src/protocol.rs`. Numbers inside JSON payloads are their text, as `serde_json` keeps them with
`arbitrary_precision`.
-/

namespace Dcode.Protocol

/-- A JSON payload. -/
abbrev JsonPayload := Json Str

inductive ImageDetail where
  | auto
  | low
  | high
  | original
deriving DecidableEq

inductive ContentItem where
  | inputText (text : Str)
  | inputImage (imageUrl : Str) (detail : Option ImageDetail)
  | inputAudio (audioUrl : Str)
  | outputText (text : Str)
deriving DecidableEq

inductive AgentMessageInputContent where
  | inputText (text : Str)
  | encryptedContent (encryptedContent : Str)
deriving DecidableEq

inductive FunctionCallOutputContentItem where
  | inputText (text : Str)
  | inputImage (imageUrl : Str) (detail : Option ImageDetail)
  | inputAudio (audioUrl : Str)
  | encryptedContent (encryptedContent : Str)
deriving DecidableEq

inductive FunctionCallOutputBody where
  | text (content : Str)
  | contentItems (items : List FunctionCallOutputContentItem)
deriving DecidableEq

structure FunctionCallOutputPayload where
  body : FunctionCallOutputBody
  success : Option Bool := none
deriving DecidableEq

def FunctionCallOutputPayload.fromText (content : Str) : FunctionCallOutputPayload :=
  ⟨.text content, none⟩

inductive MessagePhase where
  | commentary
  | finalAnswer
deriving DecidableEq

inductive ReasoningItemContent where
  | reasoningText (text : Str)
  | text (text : Str)
deriving DecidableEq

inductive LocalShellStatus where
  | completed
  | inProgress
  | incomplete
deriving DecidableEq

structure LocalShellExecAction where
  command : List Str
  timeoutMs : Option Nat := none
  workingDirectory : Option Str := none
  env : Option (List (Str × Str)) := none
  user : Option Str := none
deriving DecidableEq

inductive WebSearchAction where
  | search (query : Option Str) (queries : Option (List Str))
  | openPage (url : Option Str)
  | findInPage (url pattern : Option Str)
  | other
deriving DecidableEq

/-- `InternalChatMessageMetadataPassthrough`, without the executed tool calls that are never read back. -/
structure MetadataPassthrough where
  turnId : Option Str := none
deriving DecidableEq

inductive ResponseItem where
  | additionalTools (id : Option Str) (role : Str) (tools : List JsonPayload)
  | message (id : Option Str) (role : Str) (content : List ContentItem) (phase : Option MessagePhase)
      (metadata : Option MetadataPassthrough)
  | agentMessage (id : Option Str) (author recipient : Str) (content : List AgentMessageInputContent)
      (metadata : Option MetadataPassthrough)
  | reasoning (id : Option Str) (summary : List Str) (content : Option (List ReasoningItemContent))
      (encryptedContent : Option Str) (metadata : Option MetadataPassthrough)
  | localShellCall (id callId : Option Str) (status : LocalShellStatus) (action : LocalShellExecAction)
      (metadata : Option MetadataPassthrough)
  | functionCall (id : Option Str) (name : Str) (namesp : Option Str) (arguments : Str)
      (encryptedFunctionArgs : Option (List Str)) (callId : Str) (metadata : Option MetadataPassthrough)
  | toolSearchCall (id callId status : Option Str) (execution : Str) (arguments : JsonPayload)
      (metadata : Option MetadataPassthrough)
  | functionCallOutput (id : Option Str) (callId : Str) (output : FunctionCallOutputPayload)
      (metadata : Option MetadataPassthrough)
  | customToolCall (id status : Option Str) (callId name : Str) (namesp : Option Str) (input : Str)
      (metadata : Option MetadataPassthrough)
  | customToolCallOutput (id : Option Str) (callId : Str) (name : Option Str)
      (output : FunctionCallOutputPayload) (metadata : Option MetadataPassthrough)
  | toolSearchOutput (id callId : Option Str) (status execution : Str) (tools : List JsonPayload)
      (metadata : Option MetadataPassthrough)
  | webSearchCall (id status : Option Str) (action : Option WebSearchAction)
      (metadata : Option MetadataPassthrough)
  | imageGenerationCall (id : Option Str) (status : Str) (revisedPrompt : Option Str) (result : Str)
      (metadata : Option MetadataPassthrough)
  | compaction (id : Option Str) (encryptedContent : Str) (metadata : Option MetadataPassthrough)
  | compactionTrigger
  | contextCompaction (id encryptedContent : Option Str) (metadata : Option MetadataPassthrough)
  | other
deriving DecidableEq

structure InterAgentCommunication where
  id : Option Str := none
  author : Str
  recipient : Str
  otherRecipients : List Str := []
  content : Str
  encryptedContent : Option Str := none
  metadata : Option MetadataPassthrough := none
  triggerTurn : Bool
deriving DecidableEq

def InterAgentCommunication.toModelInputItem (self : InterAgentCommunication) : ResponseItem :=
  let content :=
    match self.encryptedContent with
    | some encryptedContent =>
      let messageType := if self.triggerTurn then "NEW_TASK".toList else "MESSAGE".toList
      [.inputText ("Message Type: ".toList ++ messageType ++ "\nTask name: ".toList ++ self.recipient ++
          "\nSender: ".toList ++ self.author ++ "\nPayload:\n".toList),
        .encryptedContent encryptedContent]
    | none => [.inputText self.content]
  .agentMessage self.id self.author self.recipient content self.metadata

end Dcode.Protocol
