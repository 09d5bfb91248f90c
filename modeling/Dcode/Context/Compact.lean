import Dcode.Context.History
import Dcode.Truncation.ContentItems

/-!
# Compacted histories

`collect_user_messages` and `build_compacted_history` of `codex-rs/core/src/compact.rs`, which rebuild the history for
a compaction that was recorded without its replacement, with the user messages of
`codex-rs/core/src/event_mapping.rs`.
-/

namespace Dcode.Context

open Protocol
open Str (stripPrefix)
open Truncation (approxTokenCount truncateText)

def summaryPrefix : Str :=
  "Another language model started to solve this problem and produced a summary of its thinking ".toList ++
    "process. You also have access to the state of the tools that were used by that language model. ".toList ++
    "Use this to build on the work that has already been done and avoid duplicating work. Here is the ".toList ++
    "summary produced by the other language model, use the information in this summary to assist with ".toList ++
    "your own analysis:".toList

def compactUserMessageMaxTokens : Nat := 20000

def isLocalOpenTagText (tag text : Str) : Bool :=
  match stripPrefix ("<".toList ++ tag ++ " name=".toList) text with
  | some rest => ">".toList.isSuffixOf rest
  | none => false

def isOpenTagText (tag text : Str) : Bool := text == "<".toList ++ tag ++ ">".toList

def isCloseTagText (tag text : Str) : Bool := text == "</".toList ++ tag ++ ">".toList

def isInputImage : ContentItem → Bool
  | .inputImage .. => true
  | _ => false

def isInputAudio : ContentItem → Bool
  | .inputAudio .. => true
  | _ => false

/-- Whether the text between two items is the label of one of them: an opening tag in front of it, or a closing
tag behind it. -/
def isLabel (tag : Str) (isMedia : ContentItem → Bool) (previous next : Option ContentItem) (text : Str) : Bool :=
  ((isLocalOpenTagText tag text || isOpenTagText tag text) && next.any isMedia) ||
    (isCloseTagText tag text && previous.any isMedia)

/-- The texts of `UserMessageItem::message` for `parse_user_message`, with the item in front. -/
def userMessageTexts (previous : Option ContentItem) : List ContentItem → Str
  | [] => []
  | item :: rest =>
    let text :=
      match item with
      | .inputText text =>
        if isLabel "image".toList isInputImage previous rest.head? text ||
          isLabel "audio".toList isInputAudio previous rest.head? text then []
        else text
      | _ => []
    text ++ userMessageTexts (some item) rest

structure CompactedUserMessage where
  message : Str
  metadata : Option MetadataPassthrough
deriving DecidableEq

section

variable (ops : ContextOps)

/-- Whether `parse_visible_hook_prompt_message` finds a hook prompt: every item is a hook prompt or a standard
contextual text, and one is a hook prompt. -/
def isVisibleHookPromptMessage (content : List ContentItem) : Bool :=
  content.all (isContextualUserFragment ops) &&
    content.any fun
      | .inputText text => ops.isHookPrompt text
      | _ => false

/-- The message of `parse_turn_item` for an item that is shown as a user message. -/
def userMessage? : ResponseItem → Option CompactedUserMessage
  | .message _ role content _ metadata =>
    if role == "user".toList && !isVisibleHookPromptMessage ops content &&
      !isContextualUserMessageContent ops content then
      some ⟨userMessageTexts none content, metadata⟩
    else none
  | _ => none

def isSummaryMessage (message : Str) : Bool := (summaryPrefix ++ ['\n']).isPrefixOf message

def collectUserMessages (items : List ResponseItem) : List CompactedUserMessage :=
  (items.filterMap (userMessage? ops)).filter fun user => !isSummaryMessage user.message

end

/-- A user message with one text. -/
def userText (text : Str) (metadata : Option MetadataPassthrough) : ResponseItem :=
  .message none "user".toList [.inputText text] none metadata

/-- The selection loop of `build_compacted_history_with_limit`, from the newest message back. A slice at a place inside a
character is a panic, `none`. -/
def selectWithLimit : List CompactedUserMessage → Nat → Option (List CompactedUserMessage)
  | [], _ => some []
  | message :: older, remaining =>
    if remaining = 0 then some []
    else
      let tokens := approxTokenCount message.message
      if tokens ≤ remaining then (selectWithLimit older (remaining - tokens)).map (message :: ·)
      else (truncateText message.message (.tokens remaining)).map fun truncated =>
        [{ message with message := truncated }]

def buildCompactedHistoryWithLimit (history : List ResponseItem) (userMessages : List CompactedUserMessage)
    (summaryText : Str) (maxTokens : Nat) : Option (List ResponseItem) := do
  let selected ← selectWithLimit userMessages.reverse maxTokens
  let summaryText := if summaryText.isEmpty then "(no summary available)".toList else summaryText
  return history ++ selected.reverse.map (fun message => userText message.message message.metadata) ++
    [userText summaryText none]

/-- No slice panics, see `buildCompactedHistoryWithLimit_max`. -/
def buildCompactedHistory (initialContext : List ResponseItem) (userMessages : List CompactedUserMessage)
    (summaryText : Str) : List ResponseItem :=
  (buildCompactedHistoryWithLimit initialContext userMessages summaryText compactUserMessageMaxTokens).getD []

end Dcode.Context
