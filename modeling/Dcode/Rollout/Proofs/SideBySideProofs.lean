import Dcode.Rollout.ModelContext
import Dcode.Session.Proofs.SegmentProofs

/-!
# Two scans side by side

The scan for the model context and the reverse scan of the reconstruction read the same items. `Bounded` says what is to
be shown of the items that are still to read, with one rule for each way in which the two go on at an item. Inside
a turn the two segments agree on the id, the message of the user and the context of the turn (`Reading`).
-/

namespace Dcode.Rollout

open Context Session List Option PersistedItem

variable {ops : RolloutOps}

/-! ## What the reconstruction reads off a scan -/

/-- Two scans from which the same session is rebuilt, whatever the rollouts are. -/
structure SameOutcome (st st' : ScanState) : Prop where
  base : st.baseReplacementHistory = st'.baseReplacementHistory
  hasBase : st.baseReplacementHistory.isSome
  settings : st.previousTurnSettings = st'.previousTurnSettings
  reference : st.referenceContextItem = st'.referenceContextItem
  window : st.window = st'.window
  hasWindow : st.window.isSome
  suffix : st.rolloutSuffix = st'.rolloutSuffix
  worldState : st.worldStateReplay.reverse.foldl replayWorldState none =
    st'.worldStateReplay.reverse.foldl replayWorldState none

variable {st : ScanState}

theorem SameOutcome.refl (hbase : st.baseReplacementHistory.isSome) (hwindow : st.window.isSome) : SameOutcome st st :=
  ⟨rfl, hbase, rfl, rfl, rfl, hwindow, rfl, rfl⟩

theorem SameOutcome.reconstruct {items items' : List RolloutItem} (h : SameOutcome (scan ops items) (scan ops items')) :
    reconstructHistoryFromRollout ops items = reconstructHistoryFromRollout ops items' := by
  obtain ⟨window, hwindow⟩ := isSome_iff_exists.mp h.hasWindow
  have hwindow' := h.window.symm.trans hwindow
  simp [reconstructHistoryFromRollout, h.base, h.settings, h.reference, h.suffix, h.worldState, hwindow, hwindow']

theorem finish_keeps : (st.baseReplacementHistory.isSome → st.finish.baseReplacementHistory.isSome) ∧
    (st.window.isSome → st.finish.window.isSome) := by
  rw [ScanState.finish]
  split
  · rw [finalizeActiveSegment]
    split
    · split <;> exact ⟨id, id⟩
    · simp only [isSome_or, Bool.or_eq_true]
      exact ⟨.inl, .inl⟩
  · exact ⟨id, id⟩

/-! ## Items that are pushed -/

namespace ModelContextScan

theorem note_itemsNewestFirst (self : ModelContextScan) (item : PersistedItem) :
    (self.note ops item).itemsNewestFirst = self.itemsNewestFirst := by
  cases item with
  | event event => cases event <;> rfl
  | item item =>
    cases item with
    | compacted compacted =>
      simp only [note]
      split <;> rfl
    | eventMsg event =>
      cases event with
      | turnStarted turnId =>
        simp only [note]
        split <;> rfl
      | _ => rfl
    | _ => rfl

def keep (self : ModelContextScan) (item : PersistedItem) : ModelContextScan :=
  { self with itemsNewestFirst := self.itemsNewestFirst ++ [item] }

variable {self : ModelContextScan}

theorem pushUntilComplete_cons (h : self.mustScanToStart = false) (item : PersistedItem) (older : List PersistedItem) :
    pushUntilComplete ops (item :: older) self =
      if (self.note ops item).hasBoundedCutoff then (self.note ops item).keep item
      else pushUntilComplete ops older ((self.note ops item).keep item) := by
  rw [pushUntilComplete]
  simp only [push, observe, h, Bool.false_eq_true, if_false]
  split
  next heq =>
    split at heq
    next hcutoff =>
      rw [if_pos hcutoff]
      rfl
    · cases heq
  next heq =>
    split at heq
    · cases heq
    next hcutoff =>
      rw [if_neg hcutoff]
      rfl

theorem pushUntilComplete_of_mustScanToStart (h : self.mustScanToStart) (item : PersistedItem)
    (older : List PersistedItem) :
    pushUntilComplete ops (item :: older) self = pushUntilComplete ops older (self.keep item) := by
  have hpush : self.push ops item = (self.keep item, .continue) := by
    rw [push, observe, if_pos h]
    rfl
  rw [pushUntilComplete, hpush]

theorem hasBoundedCutoff_of_mustScanToStart (h : self.mustScanToStart) (older : List PersistedItem) :
    (pushUntilComplete ops older self).hasBoundedCutoff = false := by
  induction older generalizing self with
  | nil => rw [pushUntilComplete, hasBoundedCutoff, h, Bool.not_true, Bool.false_and, Bool.false_and]
  | cons item older ih =>
    rw [pushUntilComplete_of_mustScanToStart h]
    exact ih h

theorem exists_pushed (older : List PersistedItem) (self : ModelContextScan) :
    ∃ pushed, (pushUntilComplete ops older self).itemsNewestFirst = self.itemsNewestFirst ++ pushed ∧
      pushed.head? = older.head? ∧
      ((pushUntilComplete ops older self).hasBoundedCutoff = false → pushed = older) := by
  induction older generalizing self with
  | nil => exact ⟨[], (append_nil _).symm, rfl, fun _ => rfl⟩
  | cons item older ih =>
    cases hmust : self.mustScanToStart with
    | true =>
      obtain ⟨pushed, hpushed, -, hall⟩ := ih (self.keep item)
      rw [pushUntilComplete_of_mustScanToStart hmust]
      refine ⟨item :: pushed, ?_, rfl, fun hcutoff => by rw [hall hcutoff]⟩
      rw [hpushed, keep, append_assoc, singleton_append]
    | false =>
      rw [pushUntilComplete_cons hmust]
      split
      next hcutoff =>
        refine ⟨[item], ?_, rfl, fun hnot => ?_⟩
        · rw [keep, note_itemsNewestFirst]
        · rw [show ((self.note ops item).keep item).hasBoundedCutoff = (self.note ops item).hasBoundedCutoff from rfl,
            hcutoff] at hnot
          cases hnot
      · obtain ⟨pushed, hpushed, -, hall⟩ := ih ((self.note ops item).keep item)
        refine ⟨item :: pushed, ?_, rfl, fun hcutoff => by rw [hall hcutoff]⟩
        rw [hpushed, keep, note_itemsNewestFirst, append_assoc, singleton_append]

end ModelContextScan

/-! ## Reading side by side -/

/-- If the scan is cut off, the reconstruction ends alike with all older items and with those that are pushed. -/
def Bounded (ops : RolloutOps) (sessionMeta : Option Str) (older : List PersistedItem) (newer : List RolloutItem)
    (reader : ModelContextScan) (st : ScanState) : Prop :=
  (reader.pushUntilComplete ops older).hasBoundedCutoff →
    ∃ pushed, (reader.pushUntilComplete ops older).itemsNewestFirst = reader.itemsNewestFirst ++ pushed ∧
      SameOutcome (scanLoop ops (older.map PersistedItem.toRolloutItem) newer st).finish
        (scanLoop ops (pushed.map PersistedItem.toRolloutItem ++ [.sessionMeta sessionMeta]) newer st).finish

namespace Bounded

variable {sessionMeta : Option Str} {item : PersistedItem} {older : List PersistedItem}
  {newer : List RolloutItem} {reader : ModelContextScan}

theorem of_mustScanToStart (h : reader.mustScanToStart) : Bounded ops sessionMeta older newer reader st := by
  intro hcutoff
  rw [ModelContextScan.hasBoundedCutoff_of_mustScanToStart h] at hcutoff
  cases hcutoff

/-- Once the reconstruction is complete, it reads no further in either rollout. -/
theorem of_isComplete (hcomplete : (scanItem ops st item.toRolloutItem newer).isComplete)
    (hwindow : (scanItem ops st item.toRolloutItem newer).window.isSome) :
    Bounded ops sessionMeta (item :: older) newer reader st := by
  intro _
  obtain ⟨pushed, hpushed, hhead, -⟩ := @ModelContextScan.exists_pushed ops (item :: older) reader
  obtain ⟨pushed, rfl⟩ := head?_eq_some_iff.mp hhead
  refine ⟨item :: pushed, hpushed, ?_⟩
  have hstop : ∀ rest, scanLoop ops (item.toRolloutItem :: rest) newer st = scanItem ops st item.toRolloutItem newer := by
    intro rest
    rw [scanLoop]
    simp [hcomplete]
  have hbase : (scanItem ops st item.toRolloutItem newer).baseReplacementHistory.isSome := by
    rw [ScanState.isComplete, Bool.and_eq_true, Bool.and_eq_true] at hcomplete
    exact hcomplete.1.1
  rw [map_cons, map_cons, cons_append, hstop, hstop]
  exact SameOutcome.refl (finish_keeps.1 hbase) (finish_keeps.2 hwindow)

section

variable (hmust : reader.mustScanToStart = false)

include hmust

theorem of_continue (hincomplete : (scanItem ops st item.toRolloutItem newer).isComplete = false)
    (hcutoff : (reader.note ops item).hasBoundedCutoff = false)
    (h : Bounded ops sessionMeta older (item.toRolloutItem :: newer) ((reader.note ops item).keep item)
      (scanItem ops st item.toRolloutItem newer)) :
    Bounded ops sessionMeta (item :: older) newer reader st := by
  rw [Bounded, ModelContextScan.pushUntilComplete_cons hmust, hcutoff, if_neg Bool.false_ne_true]
  intro hbounded
  obtain ⟨pushed, hpushed, hsame⟩ := h hbounded
  refine ⟨item :: pushed, ?_, ?_⟩
  · rw [hpushed, ModelContextScan.keep, ModelContextScan.note_itemsNewestFirst, append_assoc, singleton_append]
  · rw [map_cons, map_cons, cons_append, scanLoop, scanLoop]
    simp only [hincomplete]
    exact hsame

theorem of_cutoff (hincomplete : (scanItem ops st item.toRolloutItem newer).isComplete = false)
    (hcutoff : (reader.note ops item).hasBoundedCutoff)
    (h : SameOutcome (scanLoop ops (older.map toRolloutItem) (item.toRolloutItem :: newer)
      (scanItem ops st item.toRolloutItem newer)).finish (scanItem ops st item.toRolloutItem newer).finish) :
    Bounded ops sessionMeta (item :: older) newer reader st := by
  rw [Bounded, ModelContextScan.pushUntilComplete_cons hmust, hcutoff, if_pos rfl]
  intro _
  refine ⟨[item], ?_, ?_⟩
  · rw [ModelContextScan.keep, ModelContextScan.note_itemsNewestFirst]
  · rw [map_cons, map_cons, cons_append, scanLoop, scanLoop]
    simp only [hincomplete]
    have hmeta : scanLoop ops (map toRolloutItem [] ++ [.sessionMeta sessionMeta])
        (item.toRolloutItem :: newer) (scanItem ops st item.toRolloutItem newer) =
        scanItem ops st item.toRolloutItem newer := by
      exact ite_self _
    rw [hmeta]
    exact h

end

end Bounded

/-! ## Inside a turn -/

structure Settled (reader : ModelContextScan) (st : ScanState) : Prop where
  mustScan : reader.mustScanToStart = false
  cutoff : reader.hasBoundedCutoff = false
  incomplete : st.isComplete = false
  pending : st.pendingRollbackTurns = 0
  compaction : reader.sawCompaction = st.hasCheckpoint
  window : st.baseReplacementHistory.isSome → st.window.isSome
  completed : reader.sawCompletedTurnContext → st.previousTurnSettings.isSome ∧ st.referenceContextItem ≠ .neverSet

structure Reading (ops : RolloutOps) (id : Str) (scanned : List PersistedItem) (active : ActiveTurnSegment)
    (segment : ActiveReplaySegment) : Prop where
  activeId : active.turnId = none ∨ active.turnId = some id
  segmentId : segment.turnId = none ∨ segment.turnId = some id
  window : segment.baseReplacementHistory.isSome → segment.window.isSome
  counts : (scanned.map PersistedItem.toRolloutItem).any (isUserInstruction ops) → segment.countsAsUserTurn
  userTurn : active.hasUserTurn → segment.countsAsUserTurn ∨ scanned.any isCompletedUserMessage
  turnContext : active.hasTurnContext → segment.previousTurnSettings.isSome ∧ segment.referenceContextItem ≠ .neverSet

theorem Reading.start (id : Str) : Reading ops id [] {} {} := by
  refine ⟨.inl rfl, .inl rfl, fun hbase => ?_, fun hany => ?_, fun huser => ?_, fun hcontext => ?_⟩
  · cases hbase
  · cases hany
  · cases huser
  · cases hcontext

variable {id : Str}

theorem or_eq_none_or_some {turnId named : Option Str} (h : turnId = none ∨ turnId = some id)
    (hnamed : named = none ∨ named = some id) : turnId.or named = none ∨ turnId.or named = some id := by
  rcases h with rfl | rfl
  · exact hnamed
  · exact .inr rfl

variable {item : PersistedItem} {segment : ActiveReplaySegment}

theorem read_turnId (hid : segment.turnId = none ∨ segment.turnId = some id)
    (hnamed : namedTurn item = none ∨ namedTurn item = some id) :
    (segment.read ops item.toRolloutItem).turnId = none ∨ (segment.read ops item.toRolloutItem).turnId = some id := by
  have hor := or_eq_none_or_some hid hnamed
  cases item with
  | event event => exact hid
  | item item =>
    cases item with
    | turnContext context =>
      change (segment.attach context).turnId = none ∨ (segment.attach context).turnId = some id
      rw [segment.attach_turnId]
      exact hor
    | eventMsg event =>
      cases event with
      | turnComplete turnId | turnAborted turnId => exact hor
      | _ => exact hid
    | _ => exact hid

theorem isSegmentItem_toRolloutItem (h : isBodyItem item) : isSegmentItem item.toRolloutItem := by
  cases item with
  | event event => rfl
  | item item =>
    cases item with
    | eventMsg event =>
      cases event with
      | turnStarted turnId | threadRolledBack numTurns => cases h
      | _ => rfl
    | _ => rfl

/-- What an item of a turn does to the scan, as long as the scan can be bounded. -/
structure Noted (ops : RolloutOps) (reader after : ModelContextScan) (item : PersistedItem) : Prop where
  turnId : after.activeSegment.turnId = reader.activeSegment.turnId ∨
    after.activeSegment.turnId = reader.activeSegment.turnId.or (namedTurn item)
  userTurn : after.activeSegment.hasUserTurn → reader.activeSegment.hasUserTurn ∨
    isUserInstruction ops item.toRolloutItem ∨ isCompletedUserMessage item
  turnContext : after.activeSegment.hasTurnContext →
    reader.activeSegment.hasTurnContext ∨ ∃ context, item = .item (.turnContext context)
  completed : after.sawCompletedTurnContext = reader.sawCompletedTurnContext
  compaction : after.sawCompaction = (reader.sawCompaction || (replacementOf item.toRolloutItem).isSome)

/-- The two segments of a turn before an item of its body, which names the turn or none. -/
structure Reading.At (ops : RolloutOps) (id : Str) (scanned : List PersistedItem) (reader : ModelContextScan)
    (segment : ActiveReplaySegment) (item : PersistedItem) : Prop where
  reading : Reading ops id scanned reader.activeSegment segment
  isBody : isBodyItem item
  named : namedTurn item = none ∨ namedTurn item = some id
  noted : (reader.note ops item).mustScanToStart = false

namespace Reading.At

variable {scanned : List PersistedItem} {reader : ModelContextScan}

/-- A compaction has a replacement history and a number, as the scan could not be bounded otherwise. -/
theorem of_compacted {compacted : CompactedItem} (h : At ops id scanned reader segment (.item (.compacted compacted))) :
    compacted.replacementHistory.isSome ∧ compacted.windowNumber.isSome := by
  have hnoted := h.noted
  simp only [ModelContextScan.note] at hnoted
  split at hnoted
  · cases hnoted
  next hboth =>
    rw [Bool.or_eq_true, not_or] at hboth
    rw [Bool.not_eq_true, Bool.not_eq_true, ← not_isSome, ← not_isSome, Bool.not_eq_false', Bool.not_eq_false'] at hboth
    exact hboth

section

variable (h : At ops id scanned reader segment item)

include h

theorem noted_body : Noted ops reader (reader.note ops item) item := by
  have hbody := h.isBody
  cases item with
  | event event =>
    cases event with
    | itemCompleted turnId item =>
      simp only [ModelContextScan.note]
      split
      · refine ⟨.inr rfl, fun huser => ?_, .inl, rfl, (Bool.or_false _).symm⟩
        rcases Bool.or_eq_true _ _ |>.mp huser with hold | hmessage
        · exact .inl hold
        · exact .inr (.inr hmessage)
      · exact ⟨.inr rfl, .inl, .inl, rfl, (Bool.or_false _).symm⟩
    | _ => exact ⟨.inl rfl, .inl, .inl, rfl, (Bool.or_false _).symm⟩
  | item item =>
    cases item with
    | compacted compacted =>
      have hnoted := h.noted
      have hreplacement : (replacementOf (.compacted compacted)).isSome := h.of_compacted.1
      simp only [ModelContextScan.note] at hnoted ⊢
      split at hnoted
      · cases hnoted
      next hboth =>
        rw [if_neg hboth]
        refine ⟨.inl rfl, .inl, .inl, rfl, ?_⟩
        change true = (_ || (replacementOf (.compacted compacted)).isSome)
        rw [hreplacement, Bool.or_true]
    | turnContext context =>
      simp only [ModelContextScan.note]
      split <;> exact ⟨.inr rfl, .inl, fun _ => .inr ⟨context, rfl⟩, rfl, (Bool.or_false _).symm⟩
    | responseItem item =>
      refine ⟨.inl rfl, fun huser => ?_, .inl, rfl, (Bool.or_false _).symm⟩
      rcases Bool.or_eq_true _ _ |>.mp huser with hold | hitem
      · exact .inl hold
      · refine .inr (.inl ?_)
        change isUserTurnBoundary ops.toContextOps item
        cases item with
        | agentMessage => rfl
        | message itemId role content phase metadata =>
          rw [isUserTurnBoundary, Bool.or_eq_true]
          exact .inr hitem
        | _ => cases hitem
    | interAgentCommunication communication =>
      exact ⟨.inl rfl, fun _ => .inr (.inl rfl), .inl, rfl, (Bool.or_false _).symm⟩
    | eventMsg event =>
      cases event with
      | userMessage => exact ⟨.inl rfl, fun _ => .inr (.inl rfl), .inl, rfl, (Bool.or_false _).symm⟩
      | turnComplete turnId | turnAborted turnId => exact ⟨.inr rfl, .inl, .inl, rfl, (Bool.or_false _).symm⟩
      | turnStarted turnId | threadRolledBack numTurns => cases hbody
      | other => exact ⟨.inl rfl, .inl, .inl, rfl, (Bool.or_false _).symm⟩
    | _ => exact ⟨.inl rfl, .inl, .inl, rfl, (Bool.or_false _).symm⟩

theorem activeId :
    (reader.note ops item).activeSegment.turnId = none ∨ (reader.note ops item).activeSegment.turnId = some id := by
  rcases h.noted_body.turnId with heq | heq
  · rw [heq]
    exact h.reading.activeId
  · rw [heq]
    exact or_eq_none_or_some h.reading.activeId h.named

theorem segmentId :
    (segment.read ops item.toRolloutItem).turnId = none ∨ (segment.read ops item.toRolloutItem).turnId = some id :=
  read_turnId h.reading.segmentId h.named

theorem window : (segment.read ops item.toRolloutItem).baseReplacementHistory.isSome →
      (segment.read ops item.toRolloutItem).window.isSome := by
  have hsame := h.reading.window
  cases item with
  | event event => exact hsame
  | item item =>
    cases item with
    | compacted compacted =>
      intro _
      change (segment.window.or _).isSome
      rw [isSome_or, isSome_map, h.of_compacted.2, Bool.or_true]
    | turnContext context =>
      have hwindow : (segment.attach context).window = segment.window := by
        rw [ActiveReplaySegment.attach]
        split <;> rfl
      change (segment.attach context).baseReplacementHistory.isSome → (segment.attach context).window.isSome
      rw [segment.attach_baseReplacementHistory, hwindow]
      exact hsame
    | eventMsg event => cases event <;> exact hsame
    | _ => exact hsame

theorem counts (hany : ((item :: scanned).map toRolloutItem).any (isUserInstruction ops)) :
    (segment.read ops item.toRolloutItem).countsAsUserTurn := by
  rw [map_cons, any_cons, Bool.or_eq_true] at hany
  rw [segment.read_countsAsUserTurn, Bool.or_eq_true]
  rcases hany with hitem | hscanned
  · exact .inr hitem
  · exact .inl (h.reading.counts hscanned)

end

theorem userTurn (h : At ops id scanned reader segment item)
    (huser : (reader.note ops item).activeSegment.hasUserTurn) :
    (segment.read ops item.toRolloutItem).countsAsUserTurn ∨ (item :: scanned).any isCompletedUserMessage := by
  rw [segment.read_countsAsUserTurn, Bool.or_eq_true, any_cons, Bool.or_eq_true]
  rcases h.noted_body.userTurn huser with hold | hitem | hmessage
  · rcases h.reading.userTurn hold with hcounts | hscanned
    · exact .inl (.inl hcounts)
    · exact .inr (.inr hscanned)
  · exact .inl (.inr hitem)
  · exact .inr (.inl hmessage)

/-- The settings and the reference of a segment are never lost. -/
theorem read_settled
    (h : segment.previousTurnSettings.isSome ∧ segment.referenceContextItem ≠ .neverSet) (item : RolloutItem) :
    (segment.read ops item).previousTurnSettings.isSome ∧ (segment.read ops item).referenceContextItem ≠ .neverSet := by
  have hset : (segment.referenceContextItem == .neverSet) = false := by
    rw [beq_eq_false_iff_ne]
    exact h.2
  cases item with
  | compacted compacted =>
    refine ⟨h.1, ?_⟩
    change (if segment.referenceContextItem == .neverSet then _ else segment.referenceContextItem) ≠ _
    rw [hset]
    exact h.2
  | turnContext context =>
    change (segment.attach context).previousTurnSettings.isSome ∧
      (segment.attach context).referenceContextItem ≠ .neverSet
    rw [ActiveReplaySegment.attach]
    split
    · simp only [hset]
      exact ⟨rfl, h.2⟩
    · exact h
  | eventMsg event => cases event <;> exact h
  | _ => exact h

theorem attach_settled {context : TurnContextItem}
    (hid : segment.turnId = none ∨ segment.turnId = some id) (hcontext : context.turnId = none ∨ context.turnId = some id) :
    (segment.attach context).previousTurnSettings.isSome ∧
      (segment.attach context).referenceContextItem ≠ .neverSet := by
  have hcompatible := turnIdsAreCompatible_of (or_eq_none_or_some hid hcontext) hcontext
  rw [ActiveReplaySegment.attach]
  simp only [hcompatible, if_true]
  refine ⟨rfl, ?_⟩
  split
  · exact fun heq => by cases heq
  next hset =>
    intro heq
    rw [heq] at hset
    exact hset rfl

section

variable (h : At ops id scanned reader segment item)

include h

theorem turnContext (hcontext : (reader.note ops item).activeSegment.hasTurnContext) :
    (segment.read ops item.toRolloutItem).previousTurnSettings.isSome ∧
      (segment.read ops item.toRolloutItem).referenceContextItem ≠ .neverSet := by
  rcases h.noted_body.turnContext hcontext with hold | ⟨context, rfl⟩
  · exact read_settled (h.reading.turnContext hold) item.toRolloutItem
  · exact attach_settled h.reading.segmentId h.named

/-- The scan can only be cut off at a compaction. -/
theorem of_hasBoundedCutoff (hbefore : reader.hasBoundedCutoff = false) (hmust : reader.mustScanToStart = false)
    (hcutoff : (reader.note ops item).hasBoundedCutoff) :
    reader.sawCompletedTurnContext ∧ ∃ compacted, item = .item (.compacted compacted) := by
  rw [ModelContextScan.hasBoundedCutoff, h.noted_body.completed, h.noted_body.compaction, Bool.and_eq_true,
    Bool.and_eq_true] at hcutoff
  rw [ModelContextScan.hasBoundedCutoff, hmust, hcutoff.2, Bool.and_true, Bool.not_false, Bool.true_and] at hbefore
  have hreplacement : (replacementOf item.toRolloutItem).isSome := by
    rw [hbefore] at hcutoff
    exact hcutoff.1.2
  refine ⟨hcutoff.2, ?_⟩
  cases item with
  | event event => cases hreplacement
  | item item =>
    cases item with
    | compacted compacted => exact ⟨compacted, rfl⟩
    | _ => cases hreplacement

theorem step :
    Reading ops id (item :: scanned) (reader.note ops item).activeSegment (segment.read ops item.toRolloutItem) where
  activeId := h.activeId
  segmentId := h.segmentId
  window := h.window
  counts := h.counts
  userTurn := h.userTurn
  turnContext := h.turnContext

end

end Reading.At

theorem hasCheckpoint_scanItem {item : RolloutItem} (hitem : isSegmentItem item) (st : ScanState)
    (newer : List RolloutItem) :
    (scanItem ops st item newer).hasCheckpoint = (st.hasCheckpoint || (replacementOf item).isSome) := by
  rw [ScanState.hasCheckpoint, scanItem_segment hitem, (scanItem_frame hitem st newer).base,
    ActiveReplaySegment.read_baseReplacementHistory, isSome_or, ScanState.hasCheckpoint, Bool.or_assoc]

theorem Settled.step {scanned : List PersistedItem} {reader : ModelContextScan} (h : Settled reader st)
    (hat : Reading.At ops id scanned reader st.segment item) (hcutoff : (reader.note ops item).hasBoundedCutoff = false)
    (newer : List RolloutItem) :
    Settled ((reader.note ops item).keep item) (scanItem ops st item.toRolloutItem newer) := by
  have hitem := isSegmentItem_toRolloutItem hat.isBody
  have hframe := @scanItem_frame ops item.toRolloutItem hitem st newer
  refine ⟨hat.noted, hcutoff, ?_, ?_, ?_, ?_, ?_⟩
  · rw [hframe.isComplete, h.incomplete]
  · rw [hframe.pending, h.pending]
  · change (reader.note ops item).sawCompaction = _
    rw [hat.noted_body.compaction, hasCheckpoint_scanItem hitem, h.compaction]
  · rw [hframe.base, hframe.window]
    exact h.window
  · change (reader.note ops item).sawCompletedTurnContext → _
    rw [hat.noted_body.completed, hframe.settings, hframe.reference]
    exact h.completed

end Dcode.Rollout
