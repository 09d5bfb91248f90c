import Dcode.Rollout.Proofs.SideBySideProofs
import Dcode.Session.Proofs.RolloutReconstructionProofs

/-!
# The bounded suffix is enough

When the scan for the model context stops at the beginning of a turn, the reverse scan of the reconstruction is complete
as well; when it stops at a compaction inside a turn, the older items of that turn no longer matter to the
reconstruction, which is complete at the beginning of the turn.
-/

namespace Dcode.Rollout

open Session List Bool PersistedItem ScanState Option Bounded

variable {ops : RolloutOps}

/-! ## A cutoff inside a turn -/

variable {id : Str} {rest : List PersistedItem} {st : ScanState}

/-- The rest of a turn whose checkpoint is known adds nothing but older world states. -/
theorem scanLoop_rest (hbody : ∀ item ∈ rest, isBodyItem item)
    (hnamed : ∀ item ∈ rest, namedTurn item = none ∨ namedTurn item = some id) (hincomplete : st.isComplete = false)
    (hbase : st.segment.baseReplacementHistory.isSome) (hwindow : st.segment.window.isSome)
    (hid : st.segment.turnId = none ∨ st.segment.turnId = some id) (older newer : List RolloutItem) :
    ∃ st' newer', scanLoop ops (rest.map toRolloutItem ++ older) newer st = scanLoop ops older newer' st' ∧
      Frame st st' ∧ Extends st.segment st'.segment ∧ st'.rolloutSuffix = st.rolloutSuffix ∧
      (st'.segment.turnId = none ∨ st'.segment.turnId = some id) := by
  induction rest generalizing st newer with
  | nil => exact ⟨st, newer, rfl, Frame.refl st, Extends.refl _, rfl, hid⟩
  | cons item rest ih =>
    rw [forall_mem_cons] at hbody hnamed
    have hitem := isSegmentItem_toRolloutItem hbody.1
    have hframe := @scanItem_frame ops item.toRolloutItem hitem st newer
    have hsegment := @scanItem_segment ops item.toRolloutItem hitem st newer
    have hextends := @ActiveReplaySegment.read_extends ops st.segment hbase hwindow item.toRolloutItem
    rw [← hsegment] at hextends
    have hincomplete' : (scanItem ops st item.toRolloutItem newer).isComplete = false := by
      rw [hframe.isComplete, hincomplete]
    obtain ⟨st', newer', heq, hframe', hextends', hsuffix', hid'⟩ := @ih
      (scanItem ops st item.toRolloutItem newer) hbody.2 hnamed.2 hincomplete' (by rw [hextends.base, hbase])
      (by rw [hextends.window, hwindow]) (by rw [hsegment]; exact read_turnId hid hnamed.1)
      (item.toRolloutItem :: newer)
    refine ⟨st', newer', ?_, hframe.trans hframe', hextends.trans hextends', ?_, hid'⟩
    · rw [map_cons, cons_append, scanLoop]
      simp only [hincomplete']
      exact heq
    · rw [hsuffix', (scanItem_spec hitem st newer).2.2 hbase]

/-- World states that are older than a compaction do not matter. -/
theorem foldl_replayWorldState_compacted (newer older : List RolloutItem) (compacted : CompactedItem) :
    (newer ++ RolloutItem.compacted compacted :: older).reverse.foldl replayWorldState none =
      (newer ++ [RolloutItem.compacted compacted]).reverse.foldl replayWorldState none := by
  simp only [reverse_append, reverse_cons, foldl_append, foldl_cons, foldl_nil]
  rfl

section Rest

variable {st' : ScanState} (hframe : Frame st st') (hextends : Extends st.segment st'.segment)
  (hpending : st.pendingRollbackTurns = 0) (hsettings : st.previousTurnSettings.isSome)
  (hreference : st.referenceContextItem ≠ .neverSet)

include hframe hsettings in
theorem previousTurnSettings_of_frame : st'.finish.previousTurnSettings = st.previousTurnSettings := by
  rw [← hframe.settings] at hsettings
  exact (finish_previousTurnSettings hsettings).trans hframe.settings

include hframe hreference in
theorem referenceContextItem_of_frame : st'.finish.referenceContextItem = st.referenceContextItem := by
  rw [← hframe.reference] at hreference
  exact (finish_referenceContextItem hreference).trans hframe.reference

include hframe hextends hpending hsettings hreference

/-- Finalizing more of the segment makes no difference. -/
theorem sameOutcome_of_extends (hsuffix : st'.rolloutSuffix = st.rolloutSuffix)
    (hbase : st.segment.baseReplacementHistory.isSome) (hwindow : st.segment.window.isSome)
    {compacted : CompactedItem} {replay : List RolloutItem}
    (hworld : st.segment.worldStateReplay = replay ++ [.compacted compacted]) : SameOutcome st'.finish st.finish := by
  obtain ⟨more, hmore⟩ := hextends.worldState
  have hpending' := hframe.pending.trans hpending
  have hbase' := finish_baseReplacementHistory hpending'
  have hwindow' := finish_window hpending'
  rw [hframe.base, hextends.base] at hbase'
  rw [hframe.window, hextends.window] at hwindow'
  refine ⟨?_, ?_, ?_, ?_, ?_, ?_, ?_, ?_⟩
  · rw [hbase', finish_baseReplacementHistory hpending]
  · rw [hbase', isSome_or, hbase, Bool.or_true]
  · rw [previousTurnSettings_of_frame hframe hsettings, finish_previousTurnSettings hsettings]
  · rw [referenceContextItem_of_frame hframe hreference, finish_referenceContextItem hreference]
  · rw [hwindow', finish_window hpending]
  · rw [hwindow', isSome_or, hwindow, Bool.or_true]
  · rw [finish_rolloutSuffix hpending', finish_rolloutSuffix hpending, hsuffix]
  · have hcompacted := foldl_replayWorldState_compacted (st.worldStateReplay ++ replay) more compacted
    rw [append_assoc, append_assoc] at hcompacted
    rw [finish_worldStateReplay hpending', finish_worldStateReplay hpending, hframe.worldState, hmore, hworld, append_assoc]
    exact hcompacted

theorem isComplete_of_extends (hbase : st.segment.baseReplacementHistory.isSome) : st'.finish.isComplete := by
  rw [isComplete, finish_baseReplacementHistory (hframe.pending.trans hpending), isSome_or, hextends.base, hbase,
    previousTurnSettings_of_frame hframe hsettings, referenceContextItem_of_frame hframe hreference, hsettings,
    Bool.or_true, Bool.true_and, Bool.true_and, bne_iff_ne]
  exact hreference

end Rest

/-- Behind a compaction in a turn the reconstruction ends at the beginning of that turn, with what it has. -/
theorem sameOutcome_rest (hbody : ∀ item ∈ rest, isBodyItem item)
    (hnamed : ∀ item ∈ rest, namedTurn item = none ∨ namedTurn item = some id) (hincomplete : st.isComplete = false)
    (hpending : st.pendingRollbackTurns = 0) (hsettings : st.previousTurnSettings.isSome)
    (hreference : st.referenceContextItem ≠ .neverSet) (hbase : st.segment.baseReplacementHistory.isSome)
    (hwindow : st.segment.window.isSome) (hid : st.segment.turnId = none ∨ st.segment.turnId = some id)
    {compacted : CompactedItem} {replay : List RolloutItem}
    (hworld : st.segment.worldStateReplay = replay ++ [.compacted compacted]) (older newer : List RolloutItem) :
    SameOutcome (scanLoop ops (rest.map toRolloutItem ++ .eventMsg (.turnStarted id) :: older) newer st).finish
      st.finish := by
  obtain ⟨st', newer', heq, hframe, hextends, hsuffix, hid'⟩ := @scanLoop_rest ops id rest st hbody hnamed hincomplete
    hbase hwindow hid (.eventMsg (.turnStarted id) :: older) newer
  have hstarted := @scanItem_turnStarted ops st' id hid' newer'
  have hcomplete : (scanItem ops st' (.eventMsg (.turnStarted id)) newer').isComplete := by
    rw [hstarted]
    exact isComplete_of_extends hframe hextends hpending hsettings hreference hbase
  have hactive : (scanItem ops st' (.eventMsg (.turnStarted id)) newer').activeSegment = none := by
    rw [hstarted, finish_activeSegment]
  rw [heq, scanLoop]
  simp only [hcomplete, if_true]
  rw [finish, hactive, hstarted]
  exact sameOutcome_of_extends hframe hextends hpending hsettings hreference hsuffix hbase hwindow hworld

/-- A turn of the rollout, of which `scanned` is read and `rest` is not. -/
structure ReadingTurn (turn : RecordedTurn ops) (rest scanned : List PersistedItem) (reader : ModelContextScan)
    (st : ScanState) : Prop where
  body : turn.body = rest ++ scanned
  settled : Settled reader st
  reading : Reading ops turn.id scanned reader.activeSegment st.segment

variable {item : PersistedItem}

theorem RecordedTurn.namedTurn_eq (turn : RecordedTurn ops) (hitem : item ∈ turn.body) :
    namedTurn item = none ∨ namedTurn item = some turn.id := by
  cases hnamed : namedTurn item with
  | none => exact .inl rfl
  | some turnId => exact .inr (congrArg some (turn.named item hitem turnId hnamed))

variable {turn : RecordedTurn ops} {scanned : List PersistedItem} {reader : ModelContextScan}

theorem ReadingTurn.cutoff (h : ReadingTurn turn (rest ++ [item]) scanned reader st)
    (hat : Reading.At ops turn.id scanned reader st.segment item)
    (hcutoff : (reader.note ops item).hasBoundedCutoff) (sessionMeta : Option Str) (older : List PersistedItem)
    (newer : List RolloutItem) :
    Bounded ops sessionMeta (item :: (rest.reverse ++ .item (.eventMsg (.turnStarted turn.id)) :: older)) newer reader st := by
  obtain ⟨hcompleted, compacted, rfl⟩ := hat.of_hasBoundedCutoff h.settled.cutoff h.settled.mustScan hcutoff
  have hframe : Frame st (scanItem ops st (.compacted compacted) newer) := scanItem_frame rfl st newer
  have hsegment : (scanItem ops st (.compacted compacted) newer).segment = st.segment.compact ops compacted := rfl
  have hreading : Reading ops turn.id (.item (.compacted compacted) :: scanned) _
      (scanItem ops st (.compacted compacted) newer).segment := hat.step
  have hbase : (scanItem ops st (.compacted compacted) newer).segment.baseReplacementHistory.isSome := by
    change (st.segment.baseReplacementHistory.or compacted.replacementHistory).isSome
    rw [isSome_or, hat.of_compacted.1, Bool.or_true]
  obtain ⟨hsettings, hreference⟩ := h.settled.completed hcompleted
  have hincomplete := hframe.isComplete.trans h.settled.incomplete
  have hrest : ∀ item ∈ rest.reverse, item ∈ turn.body := by
    intro item hitem
    rw [h.body]
    exact mem_append_left _ (mem_append_left _ (List.mem_reverse.mp hitem))
  refine of_cutoff h.settled.mustScan hincomplete hcutoff ?_
  rw [map_append, map_cons]
  have hworld : (scanItem ops st (.compacted compacted) newer).segment.worldStateReplay =
      st.segment.worldStateReplay ++ [.compacted compacted] := rfl
  refine sameOutcome_rest ?_ ?_ hincomplete (hframe.pending.trans h.settled.pending) ?_ ?_ hbase (hreading.window hbase)
    hreading.segmentId hworld _ _
  · exact fun item hitem => turn.isBodyItem item (hrest item hitem)
  · exact fun item hitem => turn.namedTurn_eq (hrest item hitem)
  · exact hsettings
  · exact hreference

/-! ## The beginning of a turn -/

structure BetweenTurns (reader : ModelContextScan) (st : ScanState) : Prop where
  settled : Settled reader st
  reader : reader.activeSegment = {}
  segment : st.activeSegment = none

/-- The turn is one of the user for the reconstruction if it is one for the scan. -/
theorem ReadingTurn.counts (h : ReadingTurn turn [] scanned reader st) (huser : reader.activeSegment.hasUserTurn) :
    st.segment.countsAsUserTurn := by
  rcases h.reading.userTurn huser with hcounts | hmessage
  · exact hcounts
  · have hbody : turn.body = scanned := h.body
    rw [← hbody] at hmessage
    have hmarked := turn.marked hmessage
    rw [hbody] at hmarked
    exact h.reading.counts hmarked

section Finalize

variable (h : ReadingTurn turn [] scanned reader st)

include h

theorem ReadingTurn.finish_base : st.finish.baseReplacementHistory.isSome = reader.sawCompaction := by
  rw [finish_baseReplacementHistory h.settled.pending, isSome_or, h.settled.compaction, hasCheckpoint]

theorem ReadingTurn.finish_window (hbase : st.finish.baseReplacementHistory.isSome) : st.finish.window.isSome := by
  rw [finish_baseReplacementHistory h.settled.pending, isSome_or, or_eq_true] at hbase
  rw [ScanState.finish_window h.settled.pending, isSome_or, or_eq_true]
  rcases hbase with hbase | hbase
  · exact .inl (h.settled.window hbase)
  · exact .inr (h.reading.window hbase)

/-- A turn of the user with its context settles what is resumed. -/
theorem ReadingTurn.finish_completed (hcompleted : reader.finalizeActiveSegment.sawCompletedTurnContext) :
    st.finish.previousTurnSettings.isSome ∧ st.finish.referenceContextItem ≠ .neverSet := by
  rw [ModelContextScan.finalizeActiveSegment, or_eq_true, and_eq_true] at hcompleted
  rcases hcompleted with hold | ⟨huser, hcontext⟩
  · obtain ⟨hsettings, hreference⟩ := h.settled.completed hold
    rw [finish_previousTurnSettings hsettings, finish_referenceContextItem hreference]
    exact ⟨hsettings, hreference⟩
  · obtain ⟨hsettings, hreference⟩ := h.reading.turnContext hcontext
    exact ScanState.finish_completed h.settled.pending (h.counts huser) hsettings hreference

theorem ReadingTurn.finish_betweenTurns (hincomplete : st.finish.isComplete = false) (item : PersistedItem) :
    BetweenTurns (reader.finalizeActiveSegment.keep item) st.finish := by
  have hcheckpoint : st.finish.hasCheckpoint = st.finish.baseReplacementHistory.isSome := by
    rw [hasCheckpoint, ScanState.segment, finish_activeSegment]
    exact Bool.or_false _
  refine ⟨⟨h.settled.mustScan, ?_, hincomplete, finish_pendingRollbackTurns h.settled.pending, ?_, h.finish_window,
    h.finish_completed⟩, rfl, finish_activeSegment⟩
  · -- a cutoff here would make the reconstruction complete
    rw [← not_eq_true]
    intro hcutoff
    rw [ModelContextScan.hasBoundedCutoff, and_eq_true, and_eq_true] at hcutoff
    obtain ⟨hsettings, hreference⟩ := h.finish_completed hcutoff.2
    have hsaw : reader.sawCompaction := hcutoff.1.2
    rw [isComplete, h.finish_base, hsaw, hsettings, Bool.true_and, Bool.true_and, bne_eq_false_iff_eq] at hincomplete
    exact hreference hincomplete
  · rw [hcheckpoint, h.finish_base]
    rfl

end Finalize

theorem note_turnStarted (h : reader.activeSegment.turnId = none ∨ reader.activeSegment.turnId = some id) :
    reader.note ops (.item (.eventMsg (.turnStarted id))) = reader.finalizeActiveSegment :=
  if_pos (turnIdsAreCompatible_of h (.inr rfl))

/-- A turn of which some is read, if everything before it is read alike from between turns on. -/
theorem ReadingTurn.bounded {sessionMeta : Option Str} {older : List PersistedItem}
    (hnext : ∀ reader st newer, BetweenTurns reader st → Bounded ops sessionMeta older newer reader st)
    (h : ReadingTurn turn rest scanned reader st) (newer : List RolloutItem) :
    Bounded ops sessionMeta (rest.reverse ++ .item (.eventMsg (.turnStarted turn.id)) :: older) newer reader st := by
  induction rest using List.reverseRecOn generalizing scanned reader st newer with
  | nil =>
    have hnote := @note_turnStarted ops turn.id reader h.reading.activeId
    have hstarted := @scanItem_turnStarted ops st turn.id h.reading.segmentId newer
    cases hcomplete : st.finish.isComplete with
    | true =>
      have hbase := hcomplete
      rw [isComplete, and_eq_true, and_eq_true] at hbase
      rw [← hstarted] at hcomplete
      exact of_isComplete hcomplete (hstarted ▸ h.finish_window hbase.1.1)
    | false =>
      have hbetween := h.finish_betweenTurns hcomplete (.item (.eventMsg (.turnStarted turn.id)))
      rw [← hstarted] at hcomplete hbetween
      refine of_continue h.settled.mustScan hcomplete ?_ ?_
      · rw [hnote]
        exact hbetween.settled.cutoff
      · rw [hnote]
        exact hnext _ _ _ hbetween
  | append_singleton rest item ih =>
    rw [reverse_concat, cons_append]
    have hmem : item ∈ turn.body := by
      rw [h.body]
      exact mem_append_left _ (mem_append_right _ (mem_singleton_self item))
    have hbody := turn.isBodyItem item hmem
    have hsegment := isSegmentItem_toRolloutItem hbody
    have hincomplete : (scanItem ops st item.toRolloutItem newer).isComplete = false :=
      (scanItem_frame hsegment st newer).isComplete.trans h.settled.incomplete
    cases hnoted : (reader.note ops item).mustScanToStart with
    | true =>
      refine of_continue h.settled.mustScan hincomplete ?_ (of_mustScanToStart hnoted)
      rw [ModelContextScan.hasBoundedCutoff, hnoted, Bool.not_true, Bool.false_and, Bool.false_and]
    | false =>
      have hat : Reading.At ops turn.id scanned reader st.segment item :=
        ⟨h.reading, hbody, turn.namedTurn_eq hmem, hnoted⟩
      cases hcutoff : (reader.note ops item).hasBoundedCutoff with
      | true => exact h.cutoff hat hcutoff sessionMeta older newer
      | false =>
        have hreading : ReadingTurn turn rest (item :: scanned) ((reader.note ops item).keep item)
            (scanItem ops st item.toRolloutItem newer) := by
          refine ⟨?_, h.settled.step hat hcutoff newer, ?_⟩
          · rw [h.body, append_assoc, singleton_append]
          · rw [scanItem_segment hsegment]
            exact hat.step
        exact of_continue h.settled.mustScan hincomplete hcutoff (ih hreading _)

/-! ## The whole rollout -/

theorem read_of_isBetweenTurns (h : isBetweenTurns item) (reader : ModelContextScan) (st : ScanState)
    (newer : List RolloutItem) : reader.note ops item = reader ∧ scanItem ops st item.toRolloutItem newer = st := by
  cases item with
  | event event =>
    cases event with
    | itemCompleted turnId item => cases h
    | _ => exact ⟨rfl, rfl⟩
  | item item =>
    cases item with
    | sessionMeta contextWindowId | interAgentCommunicationMetadata triggerTurn => exact ⟨rfl, rfl⟩
    | eventMsg event =>
      cases event with
      | other => exact ⟨rfl, rfl⟩
      | _ => cases h
    | _ => cases h

theorem BetweenTurns.bounded (h : BetweenTurns reader st) (sessionMeta : Option Str) (blocks : List (RecordedBlock ops))
    (newer : List RolloutItem) :
    Bounded ops sessionMeta (recordedRollout blocks).reverse newer reader st := by
  induction blocks using List.reverseRecOn generalizing reader st newer with
  | nil =>
    intro hcutoff
    change reader.hasBoundedCutoff at hcutoff
    rw [h.settled.cutoff] at hcutoff
    cases hcutoff
  | append_singleton blocks block ih =>
    have hrollout : (recordedRollout (blocks ++ [block])).reverse = block.items.reverse ++ (recordedRollout blocks).reverse := by
      simp [recordedRollout]
    rw [hrollout]
    cases block with
    | turn turn =>
      have hreading : ReadingTurn turn turn.body [] reader st := by
        refine ⟨(append_nil _).symm, h.settled, ?_⟩
        rw [h.reader, ScanState.segment, h.segment]
        exact Reading.start turn.id
      have hbounded := hreading.bounded (fun reader st newer hbetween => ih hbetween newer) newer
      rw [RecordedBlock.items, reverse_cons, append_assoc]
      exact hbounded
    | rolledBack numTurns => exact of_continue h.settled.mustScan h.settled.incomplete rfl (of_mustScanToStart rfl)
    | between item hitem =>
      obtain ⟨hnote, hscan⟩ := @read_of_isBetweenTurns ops item hitem reader st newer
      refine of_continue h.settled.mustScan ?_ ?_ ?_
      · rw [hscan]
        exact h.settled.incomplete
      · rw [hnote]
        exact h.settled.cutoff
      · rw [hnote, hscan]
        have hkept : BetweenTurns (reader.keep item) st :=
          ⟨⟨h.settled.mustScan, h.settled.cutoff, h.settled.incomplete, h.settled.pending, h.settled.compaction,
            h.settled.window, h.settled.completed⟩, h.reader, h.segment⟩
        exact ih hkept _

/-- The items of the bounded scan rebuild the same session as the whole rollout. -/
theorem scanModelContext_reconstruct (sessionMeta : Option Str) (blocks : List (RecordedBlock ops)) :
    reconstructHistoryFromRollout ops ((scanModelContext ops sessionMeta (recordedRollout blocks)).map toRolloutItem) =
      reconstructHistoryFromRollout ops ((recordedRollout blocks).map toRolloutItem) := by
  rw [scanModelContext, ModelContextScan.finish]
  obtain ⟨pushed, hpushed, -, hall⟩ := @ModelContextScan.exists_pushed ops (recordedRollout blocks).reverse {}
  rw [nil_append] at hpushed
  cases hcutoff : (ModelContextScan.pushUntilComplete ops (recordedRollout blocks).reverse {}).hasBoundedCutoff with
  | false =>
    -- the whole rollout is returned
    simp only [false_eq_true, if_false]
    rw [hpushed, hall hcutoff, reverse_reverse]
  | true =>
    simp only [if_true]
    have hstart : BetweenTurns {} { rolloutSuffix := (recordedRollout blocks).map toRolloutItem } := by
      refine ⟨⟨rfl, rfl, rfl, rfl, rfl, fun hbase => ?_, fun hcompleted => ?_⟩, rfl, rfl⟩
      · cases hbase
      · cases hcompleted
    obtain ⟨pushed', hpushed', hsame⟩ := hstart.bounded sessionMeta blocks [] hcutoff
    rw [hpushed', map_cons]
    symm
    apply SameOutcome.reconstruct
    -- the scan of the suffix alone differs in what it starts with only
    have hstarts : SameButSuffix { rolloutSuffix := (recordedRollout blocks).map toRolloutItem }
        { rolloutSuffix := .sessionMeta sessionMeta :: pushed'.reverse.map toRolloutItem } :=
      ⟨_, rfl, fun hcheckpoint => by cases hcheckpoint⟩
    have hbase := hsame.hasBase
    rw [hsame.base] at hbase
    have hreverse : pushed'.map toRolloutItem ++ [.sessionMeta sessionMeta] =
        (.sessionMeta sessionMeta :: pushed'.reverse.map toRolloutItem).reverse := by
      simp
    rw [hreverse] at hsame hbase
    have heq := ((@SameButSuffix.scanLoop ops _ _ hstarts
      (.sessionMeta sessionMeta :: pushed'.reverse.map toRolloutItem).reverse []).finish).eq_of_base hbase
    rw [map_reverse, ← heq] at hsame
    exact hsame

/-! ## A rollout of compacted turns -/

def compactedBody (id : Str) : List PersistedItem :=
  [.item (.eventMsg .userMessage), .item (.turnContext { turnId := some id, model := "gpt-5".toList }),
    .item (.compacted { replacementHistory := some [userMessage id], windowNumber := some 1 }),
    .event (.itemCompleted id .userMessage), .item (.eventMsg (.turnComplete id))]

/-- A turn of the user in which the history was compacted. -/
def recordedTurn (id : Str) : RecordedTurn plainOps where
  id := id
  body := compactedBody id
  isBodyItem := by simp [compactedBody, isBodyItem]
  named := by simp [compactedBody, namedTurn]
  marked _ := by simp [compactedBody, toRolloutItem, isUserInstruction]

def recordedTurns : List (RecordedBlock plainOps) :=
  [.between (.item (.sessionMeta none)) rfl, .turn (recordedTurn ['1']), .turn (recordedTurn ['2']),
    .turn (recordedTurn ['3'])]

/-- The scan stops with the last of three turns, and the session is the same. -/
theorem scanModelContext_reconstruct_turns : (recordedRollout recordedTurns).length = 19 ∧
    (scanModelContext plainOps none (recordedRollout recordedTurns)).length = 7 ∧
    reconstructHistoryFromRollout plainOps
        ((scanModelContext plainOps none (recordedRollout recordedTurns)).map toRolloutItem) =
      reconstructHistoryFromRollout plainOps ((recordedRollout recordedTurns).map toRolloutItem) :=
  ⟨by decide +kernel, by decide +kernel, scanModelContext_reconstruct none recordedTurns⟩

end Dcode.Rollout
