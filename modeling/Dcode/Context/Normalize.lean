import Dcode.Context.History

/-!
# Normalising the history for a prompt

`codex-rs/core/src/context_manager/normalize.rs` and `ContextManager::normalize_history`: every call gets an output,
outputs without a call are removed, and images and audio that the model does not support are replaced. A hash set
is the list of what was inserted. `error_or_panic` only logs in a release build and is left out with the logging.
-/

namespace Dcode.Context

open Protocol

inductive InputModality where
  | text
  | image
  | audio
deriving DecidableEq

def imageContentOmittedPlaceholder : Str := "image content omitted because you do not support image input".toList

def audioContentOmittedPlaceholder : Str := "audio content omitted because you do not support audio input".toList

/-! ## Outputs for calls -/

variable (newV5 : Str → Str)

/-- `synthetic_output_id`, where `newV5` is the text of the name-based UUID in the namespace of synthetic outputs. -/
def syntheticOutputId (idKind : Str) (itemId : Option Str) : Option Str :=
  (itemId.filter fun id => !id.isEmpty).map fun sourceId =>
    idKind ++ '_' :: newV5 (idKind ++ ':' :: sourceId)

/-- The ids of the outputs that are there, by their kind. -/
structure OutputIds where
  functionOutputIds : List Str
  toolSearchOutputIds : List Str
  customToolOutputIds : List Str

variable (items : List ResponseItem)

/-- The first loop of `ensure_call_outputs_present`. -/
def outputIds : OutputIds where
  functionOutputIds := items.filterMap fun
    | .functionCallOutput _ callId _ _ => some callId
    | _ => none
  toolSearchOutputIds := items.filterMap fun
    | .toolSearchOutput _ (some callId) _ _ _ _ => some callId
    | _ => none
  customToolOutputIds := items.filterMap fun
    | .customToolCallOutput _ callId _ _ _ => some callId
    | _ => none

/-- The output of a function that was aborted. -/
def abortedFunctionOutput (id : Option Str) (callId : Str) : ResponseItem :=
  .functionCallOutput (syntheticOutputId newV5 "fco".toList id) callId (.fromText "aborted".toList) none

/-- The output that is missing for an item. -/
def missingOutput (ids : OutputIds) : ResponseItem → Option ResponseItem
  | .functionCall id _ _ _ _ callId _ =>
    if callId ∈ ids.functionOutputIds then none else some (abortedFunctionOutput newV5 id callId)
  | .toolSearchCall id (some callId) _ _ _ _ =>
    if callId ∈ ids.toolSearchOutputIds then none
    else some (.toolSearchOutput (syntheticOutputId newV5 "tso".toList id) (some callId) "completed".toList
      "client".toList [] none)
  | .customToolCall id _ callId _ _ _ _ =>
    if callId ∈ ids.customToolOutputIds then none
    else some (.customToolCallOutput (syntheticOutputId newV5 "ctco".toList id) callId none
      (.fromText "aborted".toList) none)
  | .localShellCall id (some callId) _ _ _ =>
    if callId ∈ ids.functionOutputIds then none else some (abortedFunctionOutput newV5 id callId)
  | _ => none

/-- `ensure_call_outputs_present`: the missing outputs are collected with the index of their call, and inserted
from the last one on. -/
def ensureCallOutputsPresent : List ResponseItem :=
  let ids := outputIds items
  let missingOutputsToInsert := items.zipIdx.filterMap fun (item, idx) =>
    (missingOutput newV5 ids item).map fun output => (idx, output)
  missingOutputsToInsert.reverse.foldl (fun items (idx, output) => items.insertIdx (idx + 1) output) items

/-! ## Calls for outputs -/

/-- The ids of the calls that are there, by their kind. -/
structure CallIds where
  functionCallIds : List Str
  toolSearchCallIds : List Str
  localShellCallIds : List Str
  customToolCallIds : List Str

/-- The sets that `remove_orphan_outputs` collects. -/
def callIds : CallIds where
  functionCallIds := items.filterMap fun
    | .functionCall _ _ _ _ _ callId _ => some callId
    | _ => none
  toolSearchCallIds := items.filterMap fun
    | .toolSearchCall _ (some callId) _ _ _ _ => some callId
    | _ => none
  localShellCallIds := items.filterMap fun
    | .localShellCall _ (some callId) _ _ _ => some callId
    | _ => none
  customToolCallIds := items.filterMap fun
    | .customToolCall _ _ callId _ _ _ _ => some callId
    | _ => none

/-- Whether `remove_orphan_outputs` retains an item. -/
def retainsOutput (ids : CallIds) : ResponseItem → Bool
  | .functionCallOutput _ callId _ _ =>
    decide (callId ∈ ids.functionCallIds) || decide (callId ∈ ids.localShellCallIds)
  | .customToolCallOutput _ callId _ _ _ => decide (callId ∈ ids.customToolCallIds)
  | .toolSearchOutput _ callId _ execution _ _ =>
    if execution = "server".toList then true
    else match callId with
      | some callId => decide (callId ∈ ids.toolSearchCallIds)
      | none => true
  | _ => true

def removeOrphanOutputs : List ResponseItem :=
  items.filter (retainsOutput (callIds items))

/-! ## Images and audio -/

/-- The body of a tool output with each of its content items replaced. -/
def FunctionCallOutputPayload.mapItems (f : FunctionCallOutputContentItem → FunctionCallOutputContentItem)
    (payload : FunctionCallOutputPayload) : FunctionCallOutputPayload :=
  match payload.body with
  | .contentItems items => { payload with body := .contentItems (items.map f) }
  | .text _ => payload

def stripImages : ResponseItem → ResponseItem
  | .message id role content phase metadata =>
    .message id role
      (content.map fun
        | .inputImage _ _ => .inputText imageContentOmittedPlaceholder
        | item => item) phase metadata
  | .functionCallOutput id callId output metadata =>
    .functionCallOutput id callId (FunctionCallOutputPayload.mapItems stripImage output) metadata
  | .customToolCallOutput id callId name output metadata =>
    .customToolCallOutput id callId name (FunctionCallOutputPayload.mapItems stripImage output) metadata
  | .imageGenerationCall id status revisedPrompt _ metadata =>
    .imageGenerationCall id status revisedPrompt [] metadata
  | item => item
where
  stripImage : FunctionCallOutputContentItem → FunctionCallOutputContentItem
    | .inputImage _ _ => .inputText imageContentOmittedPlaceholder
    | item => item

def stripAudio : ResponseItem → ResponseItem
  | .message id role content phase metadata =>
    .message id role
      (content.map fun
        | .inputAudio _ => .inputText audioContentOmittedPlaceholder
        | item => item) phase metadata
  | .functionCallOutput id callId output metadata =>
    .functionCallOutput id callId (FunctionCallOutputPayload.mapItems stripAudioItem output) metadata
  | .customToolCallOutput id callId name output metadata =>
    .customToolCallOutput id callId name (FunctionCallOutputPayload.mapItems stripAudioItem output) metadata
  | item => item
where
  stripAudioItem : FunctionCallOutputContentItem → FunctionCallOutputContentItem
    | .inputAudio _ => .inputText audioContentOmittedPlaceholder
    | item => item

variable (inputModalities : List InputModality)

def stripImagesWhenUnsupported (items : List ResponseItem) : List ResponseItem :=
  if .image ∈ inputModalities then items else items.map stripImages

def stripAudioWhenUnsupported (items : List ResponseItem) : List ResponseItem :=
  if .audio ∈ inputModalities then items else items.map stripAudio

/-- `ContextManager::normalize_history`, on the items. -/
def normalizeHistory (items : List ResponseItem) : List ResponseItem :=
  let items := ensureCallOutputsPresent newV5 items
  let items := removeOrphanOutputs items
  let items := stripImagesWhenUnsupported inputModalities items
  stripAudioWhenUnsupported inputModalities items

end Dcode.Context
