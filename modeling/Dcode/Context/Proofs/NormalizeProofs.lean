import Dcode.Context.Normalize
import Dcode.Lib.CallPairing

/-!
# A normalised history is well paired

The two passes are those of `CallPairing`, with the kind of an output and its call id as the key: function calls and
local shell calls share one kind. What the server executed is exempt from having a call.
-/

namespace Dcode.Context

open Protocol CallPairing InputModality

/-! ## Calls and outputs -/

inductive OutputKind where
  | function
  | toolSearch
  | custom
deriving DecidableEq

def callKey : ResponseItem → Option (OutputKind × Str)
  | .functionCall _ _ _ _ _ callId _ => some (.function, callId)
  | .localShellCall _ (some callId) _ _ _ => some (.function, callId)
  | .toolSearchCall _ (some callId) _ _ _ _ => some (.toolSearch, callId)
  | .customToolCall _ _ callId _ _ _ _ => some (.custom, callId)
  | _ => none

def outputKey : ResponseItem → Option (OutputKind × Str)
  | .functionCallOutput _ callId _ _ => some (.function, callId)
  | .toolSearchOutput _ (some callId) _ _ _ _ => some (.toolSearch, callId)
  | .customToolCallOutput _ callId _ _ _ => some (.custom, callId)
  | _ => none

def isOutput : ResponseItem → Bool
  | .functionCallOutput .. => true
  | .toolSearchOutput .. => true
  | .customToolCallOutput .. => true
  | _ => false

def isServerSide : ResponseItem → Bool
  | .toolSearchOutput _ _ _ execution _ _ => execution == "server".toList
  | _ => false

def syntheticOutput (newV5 : Str → Str) : ResponseItem → ResponseItem
  | .functionCall id _ _ _ _ callId _ => abortedFunctionOutput newV5 id callId
  | .localShellCall id (some callId) _ _ _ => abortedFunctionOutput newV5 id callId
  | .toolSearchCall id (some callId) _ _ _ _ =>
    .toolSearchOutput (syntheticOutputId newV5 "tso".toList id) (some callId) "completed".toList
      "client".toList [] none
  | .customToolCall id _ callId _ _ _ _ =>
    .customToolCallOutput (syntheticOutputId newV5 "ctco".toList id) callId none
      (.fromText "aborted".toList) none
  | item => item

def pairing (newV5 : Str → Str) : CallPairing.Pairing ResponseItem (OutputKind × Str) where
  callKey := callKey
  outputKey := outputKey
  exempt := isServerSide
  synthesize := syntheticOutput newV5
  outputKey_of_call := by
    intro item key h
    cases item <;> first | rfl | cases h
  callKey_synthesize := by
    intro item key h
    unfold callKey at h
    split at h <;> first | rfl | cases h
  outputKey_synthesize := by
    intro item key h
    unfold callKey at h
    split at h <;> first | exact h | cases h

variable (newV5 : Str → Str)

/-! ## The outputs that are missing -/

theorem mem_outputIds (callId : Str) (items : List ResponseItem) : (callId ∈ (outputIds items).functionOutputIds ↔
      hasOutput (pairing newV5) items (.function, callId)) ∧
    (callId ∈ (outputIds items).toolSearchOutputIds ↔ hasOutput (pairing newV5) items (.toolSearch, callId)) ∧
    (callId ∈ (outputIds items).customToolOutputIds ↔ hasOutput (pairing newV5) items (.custom, callId)) := by
  simp only [hasOutput_iff, outputIds, List.mem_filterMap]
  refine ⟨?_, ?_, ?_⟩ <;> refine exists_congr fun item => and_congr_right fun _ => ?_
  all_goals cases item with
    | toolSearchOutput _ callId _ _ _ _ => cases callId <;> simp [pairing, outputKey]
    | _ => simp [pairing, outputKey]

variable (items : List ResponseItem)

theorem missingOutput_toList (item : ResponseItem) :
    (missingOutput newV5 (outputIds items) item).toList = missing (pairing newV5) items item := by
  -- a call is answered exactly when its key is among the outputs
  have hcall : ∀ {key : OutputKind × Str} {ids : List Str} {output : ResponseItem},
      (key.2 ∈ ids ↔ hasOutput (pairing newV5) items key) → callKey item = some key →
      syntheticOutput newV5 item = output →
      (if key.2 ∈ ids then none else some output).toList = missing (pairing newV5) items item := by
    intro key ids output hids hkey houtput
    have hsynthesize : (pairing newV5).synthesize item = output := houtput
    rw [missing_of_call (pairing newV5) hkey, hsynthesize]
    by_cases hout : key.2 ∈ ids
    · simp [hout, hids.mp hout]
    · have hnot : ¬ hasOutput (pairing newV5) items key := fun h => hout (hids.mpr h)
      simp [hout, hnot]
  have hother : callKey item = none → ([] : List ResponseItem) = missing (pairing newV5) items item :=
    fun hkey => (missing_of_not_call (pairing newV5) hkey).symm
  cases item with
  | functionCall _ _ _ _ _ _ _ => exact hcall (mem_outputIds newV5 _ items).1 rfl rfl
  | customToolCall _ _ _ _ _ _ _ => exact hcall (mem_outputIds newV5 _ items).2.2 rfl rfl
  | localShellCall _ callId _ _ _ =>
    cases callId with
    | some callId => exact hcall (mem_outputIds newV5 _ items).1 rfl rfl
    | none => exact hother rfl
  | toolSearchCall _ callId _ _ _ _ =>
    cases callId with
    | some callId => exact hcall (mem_outputIds newV5 _ items).2.1 rfl rfl
    | none => exact hother rfl
  | _ => exact hother rfl

theorem ensureCallOutputsPresent_eq : ensureCallOutputsPresent newV5 items = complete (pairing newV5) items := by
  have hinsert := foldl_insertIdx (missingOutput newV5 (outputIds items)) items
  have hmissing : (fun item => item :: (missingOutput newV5 (outputIds items) item).toList) =
      fun item => item :: missing (pairing newV5) items item := by
    funext item
    rw [missingOutput_toList]
  rw [hmissing] at hinsert
  exact hinsert

/-! ## The outputs that are removed -/

theorem mem_callIds (callId : Str) (items : List ResponseItem) :
    (callId ∈ (callIds items).functionCallIds ∨ callId ∈ (callIds items).localShellCallIds ↔
      hasCall (pairing newV5) items (.function, callId)) ∧
    (callId ∈ (callIds items).toolSearchCallIds ↔ hasCall (pairing newV5) items (.toolSearch, callId)) ∧
    (callId ∈ (callIds items).customToolCallIds ↔ hasCall (pairing newV5) items (.custom, callId)) := by
  simp only [hasCall_iff, callIds, List.mem_filterMap, ← exists_or, ← and_or_left]
  refine ⟨?_, ?_, ?_⟩ <;> refine exists_congr fun item => and_congr_right fun _ => ?_
  all_goals cases item with
    | localShellCall _ callId _ _ _ | toolSearchCall _ callId _ _ _ _ => cases callId <;> simp [pairing, callKey]
    | _ => simp [pairing, callKey]

theorem retainsOutput_eq (item : ResponseItem) :
    retainsOutput (callIds items) item = !isOrphan (pairing newV5) items item := by
  have hother : outputKey item = none → true = !isOrphan (pairing newV5) items item := by
    intro hkey
    have hpairing : (pairing newV5).outputKey item = none := hkey
    rw [isOrphan, hpairing]
    rfl
  cases item with
  | functionCallOutput id callId output metadata =>
    rw [Bool.eq_iff_iff, Bool.not_eq_true', isOrphan_eq_false_iff]
    simp only [retainsOutput, Bool.or_eq_true, decide_eq_true_eq, (mem_callIds newV5 _ items).1]
    simp [pairing, outputKey, isServerSide]
  | customToolCallOutput id callId name output metadata =>
    rw [Bool.eq_iff_iff, Bool.not_eq_true', isOrphan_eq_false_iff]
    simp only [retainsOutput, decide_eq_true_eq, (mem_callIds newV5 _ items).2.2]
    simp [pairing, outputKey, isServerSide]
  | toolSearchOutput id callId status execution tools metadata =>
    rw [Bool.eq_iff_iff, Bool.not_eq_true', isOrphan_eq_false_iff]
    cases callId with
    | none => simp [retainsOutput, pairing, outputKey]
    | some callId =>
      by_cases hserver : execution = "server".toList
      · simp [retainsOutput, pairing, isServerSide, hserver]
      · have hexempt : isServerSide (.toolSearchOutput id (some callId) status execution tools metadata) = false := by
          simpa [isServerSide] using hserver
        simp only [retainsOutput, hserver, if_false, decide_eq_true_eq, (mem_callIds newV5 _ items).2.1]
        constructor
        · intro hcall key hkey _
          obtain rfl := Option.some.inj hkey
          exact hcall
        · intro hcall
          exact hcall _ rfl hexempt
  | _ => exact hother rfl

theorem removeOrphanOutputs_eq : removeOrphanOutputs items = prune (pairing newV5) items := by
  rw [removeOrphanOutputs]
  congr 1
  funext item
  exact retainsOutput_eq newV5 items item

/-! ## The history -/

theorem normalizeHistory_eq {inputModalities : List InputModality} (himage : .image ∈ inputModalities)
    (haudio : .audio ∈ inputModalities) (items : List ResponseItem) :
    normalizeHistory newV5 inputModalities items = CallPairing.normalize (pairing newV5) items := by
  rw [normalizeHistory, stripAudioWhenUnsupported, stripImagesWhenUnsupported, if_pos himage, if_pos haudio,
    ensureCallOutputsPresent_eq, removeOrphanOutputs_eq newV5, CallPairing.normalize]

def hasCall (key : OutputKind × Str) : Bool :=
  items.any fun item => callKey item = some key

def hasOutput (key : OutputKind × Str) : Bool :=
  items.any fun item => outputKey item = some key

/-- An output with a call id that no call has, and not of a tool that the server ran. -/
def isOrphanOutput (item : ResponseItem) : Bool :=
  (outputKey item).any fun key => !isServerSide item && !hasCall items key

def isUnanswered (item : ResponseItem) : Bool :=
  (callKey item).any fun key => !hasOutput items key

theorem isOrphan_eq (item : ResponseItem) : isOrphan (pairing newV5) items item = isOrphanOutput items item := by
  cases outputKey item <;> rfl

theorem missing_eq (item : ResponseItem) : missing (pairing newV5) items item =
      if isUnanswered items item then [syntheticOutput newV5 item] else [] := by
  cases hkey : callKey item with
  | none => rw [missing_of_not_call (pairing newV5) hkey, isUnanswered, hkey]; rfl
  | some key =>
    have hout : CallPairing.hasOutput (pairing newV5) items key = hasOutput items key := rfl
    rw [missing_of_call (pairing newV5) hkey, isUnanswered, hkey, Option.any_some, hout]
    cases hasOutput items key <;> rfl

/-- A normalised history is well paired: a call has an output of its kind, and an output with a call id that the
server did not produce has a call. It is the history without the orphaned outputs, with an output made up directly
behind each call that had none, and normalising it again changes nothing. -/
theorem normalizeHistory_paired {inputModalities : List InputModality} (himage : .image ∈ inputModalities)
    (haudio : .audio ∈ inputModalities) (items : List ResponseItem) :
    let normalized := normalizeHistory newV5 inputModalities items
    (∀ call ∈ normalized, ∀ key, callKey call = some key → ∃ output ∈ normalized, outputKey output = some key) ∧
    (∀ output ∈ normalized, ∀ key, outputKey output = some key → isServerSide output = false →
      ∃ call ∈ normalized, callKey call = some key) ∧
    (normalized = items.flatMap fun item =>
      if isOrphanOutput items item then []
      else item :: if isUnanswered items item then [syntheticOutput newV5 item] else []) ∧
    (∀ item ∈ items, ∀ key, callKey item = some key → outputKey (syntheticOutput newV5 item) = some key) ∧
    normalizeHistory newV5 inputModalities normalized = normalized := by
  intro normalized
  have hnormalized : normalized = CallPairing.normalize (pairing newV5) items :=
    normalizeHistory_eq newV5 himage haudio items
  refine ⟨fun call hcall key hkey => ?_, fun output houtput key hkey hserver => ?_, ?_,
    fun item _ key hkey => (pairing newV5).outputKey_synthesize hkey, ?_⟩
  · rw [hnormalized] at hcall ⊢
    exact exists_output (pairing newV5) hcall hkey
  · rw [hnormalized] at houtput ⊢
    exact exists_call (pairing newV5) houtput hkey hserver
  · rw [hnormalized, CallPairing.normalize_eq]
    congr 1
    funext item
    rw [isOrphan_eq, missing_eq]
  · rw [hnormalized, normalizeHistory_eq newV5 himage haudio, normalize_normalize]

def unpairedItems : List ResponseItem :=
  [.functionCallOutput none ['x'] (.fromText []) none, .functionCall none ['f'] none [] none ['a'] none]

theorem normalizeHistory_paired_unpaired : image ∈ [text, .image, .audio] ∧ audio ∈ [text, .image, .audio] ∧
      let normalized := normalizeHistory id [.text, .image, .audio] unpairedItems
      normalized = [.functionCall none ['f'] none [] none ['a'] none,
        .functionCallOutput none ['a'] (.fromText "aborted".toList) none] ∧
      normalizeHistory id [.text, .image, .audio] normalized = normalized := by
  have himage : image ∈ [text, .image, .audio] := by simp
  have haudio : audio ∈ [text, .image, .audio] := by simp
  exact ⟨himage, haudio, by decide +kernel, (normalizeHistory_paired id himage haudio unpairedItems).2.2.2.2⟩

def searchOutputWithoutId : ResponseItem :=
  .toolSearchOutput none none "completed".toList "client".toList [] none

/-- It stays, although there is no call. -/
theorem normalizeHistory_searchOutputWithoutId :
    normalizeHistory id [.text, .image, .audio] [searchOutputWithoutId] = [searchOutputWithoutId] ∧
      isOutput searchOutputWithoutId = true ∧ isServerSide searchOutputWithoutId = false ∧
      ∀ call ∈ [searchOutputWithoutId], callKey call = none := by
  refine ⟨by decide +kernel, rfl, by decide +kernel, fun call hcall => ?_⟩
  rw [List.mem_singleton.mp hcall]
  rfl

end Dcode.Context
