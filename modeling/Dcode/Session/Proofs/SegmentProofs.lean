import Dcode.Session.TurnLog

/-!
# Segments of the reverse scan

What a single item makes of the segment it is in, and two facts about the end of a scan: an open segment is finalized
there, and a scan that has found a checkpoint does not depend on the suffix it started with.
-/

namespace Dcode.Session

open Protocol Context Option

variable {ops : RolloutOps}

/-! ## Inside a segment -/

def ScanState.segment (st : ScanState) : ActiveReplaySegment := st.activeSegment.getD {}

def isSegmentItem : RolloutItem → Bool
  | .eventMsg (.turnStarted _) => false
  | .eventMsg (.threadRolledBack _) => false
  | _ => true

def ActiveReplaySegment.read (ops : RolloutOps) (segment : ActiveReplaySegment) : RolloutItem → ActiveReplaySegment
  | .compacted compacted => segment.compact ops compacted
  | .eventMsg (.turnComplete turnId) => { segment with turnId := segment.turnId.or (some turnId) }
  | .eventMsg (.turnAborted turnId) => { segment with turnId := segment.turnId.or turnId }
  | .eventMsg .userMessage => { segment with countsAsUserTurn := true }
  | .interAgentCommunication _ => { segment with countsAsUserTurn := true }
  | .responseItem item =>
    { segment with countsAsUserTurn := segment.countsAsUserTurn || isUserTurnBoundary ops.toContextOps item }
  | .turnContext ctx => segment.attach ctx
  | .worldState item => { segment with worldStateReplay := segment.worldStateReplay ++ [.worldState item] }
  | _ => segment

def replacementOf : RolloutItem → Option (List ResponseItem)
  | .compacted compacted => compacted.replacementHistory
  | _ => none

theorem ActiveReplaySegment.attach_turnId (segment : ActiveReplaySegment) (ctx : TurnContextItem) :
    (segment.attach ctx).turnId = segment.turnId.or ctx.turnId := by
  rw [attach]
  split <;> rfl

theorem ActiveReplaySegment.attach_countsAsUserTurn (segment : ActiveReplaySegment) (ctx : TurnContextItem) :
    (segment.attach ctx).countsAsUserTurn = segment.countsAsUserTurn := by
  rw [attach]
  split <;> rfl

theorem ActiveReplaySegment.attach_baseReplacementHistory (segment : ActiveReplaySegment) (ctx : TurnContextItem) :
    (segment.attach ctx).baseReplacementHistory = segment.baseReplacementHistory := by
  rw [attach]
  split <;> rfl

theorem ActiveReplaySegment.read_baseReplacementHistory (segment : ActiveReplaySegment) (item : RolloutItem) :
    (segment.read ops item).baseReplacementHistory = segment.baseReplacementHistory.or (replacementOf item) := by
  cases item with
  | compacted compacted => rfl
  | turnContext ctx => exact (segment.attach_baseReplacementHistory ctx).trans or_none.symm
  | eventMsg event => cases event <;> exact or_none.symm
  | _ => exact or_none.symm

theorem ActiveReplaySegment.read_countsAsUserTurn (segment : ActiveReplaySegment) (item : RolloutItem) :
    (segment.read ops item).countsAsUserTurn = (segment.countsAsUserTurn || isUserInstruction ops item) := by
  cases item with
  | responseItem item => rfl
  | interAgentCommunication communication => exact (Bool.or_true _).symm
  | turnContext ctx => exact (segment.attach_countsAsUserTurn ctx).trans (Bool.or_false _).symm
  | eventMsg event =>
    cases event with
    | userMessage => exact (Bool.or_true _).symm
    | _ => exact (Bool.or_false _).symm
  | _ => exact (Bool.or_false _).symm

/-- The item changes the segment, and the suffix if it is the first checkpoint of the segment. -/
theorem scanItem_of_isSegmentItem {item : RolloutItem} (h : isSegmentItem item) (st : ScanState)
    (newer : List RolloutItem) :
    ∃ active, active.getD {} = st.segment.read ops item ∧
      ∀ suffix, scanItem ops { st with rolloutSuffix := suffix } item newer = { st with
          activeSegment := active
          rolloutSuffix :=
            if st.segment.baseReplacementHistory.isNone && (replacementOf item).isSome then newer else suffix } := by
  have hplain : ∀ suffix : List RolloutItem, replacementOf item = none →
      (if st.segment.baseReplacementHistory.isNone && (replacementOf item).isSome then newer else suffix) = suffix := by
    intro suffix hnone
    rw [hnone, isSome_none, Bool.and_false, if_neg Bool.false_ne_true]
  cases item with
  | compacted compacted => exact ⟨some (st.segment.compact ops compacted), rfl, fun _ => rfl⟩
  | eventMsg event =>
    cases event with
    | threadRolledBack numTurns | turnStarted turnId => cases h
    | turnAborted turnId =>
      cases hactive : st.activeSegment with
      | some segment =>
        refine ⟨some { segment with turnId := segment.turnId.or turnId }, ?_, fun suffix => ?_⟩
        · rw [ScanState.segment, hactive]
          rfl
        · rw [hplain suffix rfl]
          simp [scanItem]
      | none =>
        refine ⟨turnId.map fun turnId => { turnId := some turnId }, ?_, fun suffix => ?_⟩
        · rw [ScanState.segment, hactive]
          cases turnId <;> rfl
        · rw [hplain suffix rfl]
          simp [scanItem]
    | other => exact ⟨_, rfl, fun suffix => by rw [hplain suffix rfl]; rfl⟩
    | _ => exact ⟨some _, rfl, fun suffix => by rw [hplain suffix rfl]; rfl⟩
  | sessionMeta contextWindowId
  | interAgentCommunicationMetadata triggerTurn => exact ⟨_, rfl, fun suffix => by rw [hplain suffix rfl]; rfl⟩
  | _ => exact ⟨some _, rfl, fun suffix => by rw [hplain suffix rfl]; rfl⟩

structure Frame (st st' : ScanState) : Prop where
  base : st'.baseReplacementHistory = st.baseReplacementHistory
  settings : st'.previousTurnSettings = st.previousTurnSettings
  reference : st'.referenceContextItem = st.referenceContextItem
  worldState : st'.worldStateReplay = st.worldStateReplay
  window : st'.window = st.window
  pending : st'.pendingRollbackTurns = st.pendingRollbackTurns

theorem Frame.refl (st : ScanState) : Frame st st := ⟨rfl, rfl, rfl, rfl, rfl, rfl⟩

variable {st : ScanState}

theorem Frame.trans {st' st'' : ScanState} (h : Frame st st') (h' : Frame st' st'') : Frame st st'' :=
  ⟨h'.base.trans h.base, h'.settings.trans h.settings, h'.reference.trans h.reference,
    h'.worldState.trans h.worldState, h'.window.trans h.window, h'.pending.trans h.pending⟩

theorem Frame.isComplete {st' : ScanState} (h : Frame st st') : st'.isComplete = st.isComplete := by
  rw [ScanState.isComplete, h.base, h.settings, h.reference, ScanState.isComplete]

section

variable {item : RolloutItem} (hitem : isSegmentItem item) (st : ScanState) (newer : List RolloutItem)

include hitem

theorem scanItem_spec : Frame st (scanItem ops st item newer) ∧
    (scanItem ops st item newer).segment = st.segment.read ops item ∧
    (st.segment.baseReplacementHistory.isSome → (scanItem ops st item newer).rolloutSuffix = st.rolloutSuffix) := by
  obtain ⟨active, hread, hscan⟩ := @scanItem_of_isSegmentItem ops item hitem st newer
  have hself := hscan st.rolloutSuffix
  rw [hself]
  refine ⟨⟨rfl, rfl, rfl, rfl, rfl, rfl⟩, hread, fun hbase => ?_⟩
  have hnone : st.segment.baseReplacementHistory.isNone = false := by rw [← not_isSome, hbase, Bool.not_true]
  rw [hnone, Bool.false_and, if_neg Bool.false_ne_true]

theorem scanItem_frame : Frame st (scanItem ops st item newer) := (scanItem_spec hitem st newer).1

theorem scanItem_segment : (scanItem ops st item newer).segment = st.segment.read ops item :=
  (scanItem_spec hitem st newer).2.1

end

/-! ## The end of a segment -/

def ScanState.finish (st : ScanState) : ScanState :=
  match st.activeSegment with
  | some segment => finalizeActiveSegment { st with activeSegment := none } segment
  | none => st

theorem turnIdsAreCompatible_of {id : Str} {activeId itemId : Option Str} (hactive : activeId = none ∨ activeId = some id)
    (hitem : itemId = none ∨ itemId = some id) : turnIdsAreCompatible activeId itemId := by
  rcases hactive with rfl | rfl
  · rfl
  · rcases hitem with rfl | rfl
    · rfl
    · exact beq_self_eq_true id

theorem scanItem_turnStarted {turnId : Str} (hid : st.segment.turnId = none ∨ st.segment.turnId = some turnId)
    (newer : List RolloutItem) : scanItem ops st (.eventMsg (.turnStarted turnId)) newer = st.finish := by
  have hcompatible := turnIdsAreCompatible_of hid (.inr rfl)
  rw [ScanState.segment] at hcompatible
  rw [scanItem, ScanState.finish]
  cases hactive : st.activeSegment with
  | some active =>
    rw [hactive] at hcompatible
    exact if_pos hcompatible
  | none => rfl

structure Extends (segment segment' : ActiveReplaySegment) : Prop where
  base : segment'.baseReplacementHistory = segment.baseReplacementHistory
  window : segment'.window = segment.window
  worldState : ∃ more, segment'.worldStateReplay = segment.worldStateReplay ++ more

theorem Extends.refl (segment : ActiveReplaySegment) : Extends segment segment :=
  ⟨rfl, rfl, [], (List.append_nil _).symm⟩

theorem Extends.trans {segment segment' segment'' : ActiveReplaySegment} (h : Extends segment segment')
    (h' : Extends segment' segment'') : Extends segment segment'' := by
  obtain ⟨more, hmore⟩ := h.worldState
  obtain ⟨more', hmore'⟩ := h'.worldState
  refine ⟨h'.base.trans h.base, h'.window.trans h.window, more ++ more', ?_⟩
  rw [hmore', hmore, List.append_assoc]

theorem ActiveReplaySegment.read_extends {segment : ActiveReplaySegment}
    (hbase : segment.baseReplacementHistory.isSome) (hwindow : segment.window.isSome)
    (item : RolloutItem) : Extends segment (segment.read ops item) := by
  have hsame : segment.baseReplacementHistory.or (replacementOf item) = segment.baseReplacementHistory :=
    or_of_isSome hbase
  have hbase' : (segment.read ops item).baseReplacementHistory = segment.baseReplacementHistory := by
    rw [segment.read_baseReplacementHistory, hsame]
  cases item with
  | compacted compacted => exact ⟨hbase', or_of_isSome hwindow, _, rfl⟩
  | worldState item => exact ⟨hbase', rfl, _, rfl⟩
  | turnContext ctx =>
    refine ⟨hbase', ?_, [], ?_⟩
    · rw [read, attach]
      split <;> rfl
    · rw [read, attach, List.append_nil]
      split <;> rfl
  | eventMsg event => cases event <;> exact ⟨hbase', rfl, [], (List.append_nil _).symm⟩
  | _ => exact ⟨hbase', rfl, [], (List.append_nil _).symm⟩

namespace ScanState

theorem finish_activeSegment : st.finish.activeSegment = none := by
  cases hactive : st.activeSegment with
  | none => simp only [finish, hactive]
  | some segment =>
    simp only [finish, hactive, finalizeActiveSegment]
    split
    · split <;> rfl
    · rfl

theorem finish_previousTurnSettings (h : st.previousTurnSettings.isSome) :
    st.finish.previousTurnSettings = st.previousTurnSettings := by
  have hsome : st.previousTurnSettings.isNone = false := by rw [← not_isSome, h, Bool.not_true]
  rw [finish]
  split
  · rw [finalizeActiveSegment]
    split
    · split <;> rfl
    · simp [hsome]
  · rfl

theorem finish_referenceContextItem (h : st.referenceContextItem ≠ .neverSet) :
    st.finish.referenceContextItem = st.referenceContextItem := by
  rw [finish]
  split
  · rw [finalizeActiveSegment]
    split
    · split <;> rfl
    · simp [beq_eq_false_iff_ne.mpr h]
  · rfl

section

variable (h : st.pendingRollbackTurns = 0)

include h

theorem finish_baseReplacementHistory :
    st.finish.baseReplacementHistory = st.baseReplacementHistory.or st.segment.baseReplacementHistory := by
  cases hactive : st.activeSegment <;> simp [finish, segment, finalizeActiveSegment, hactive, h]

theorem finish_window : st.finish.window = st.window.or st.segment.window := by
  cases hactive : st.activeSegment <;> simp [finish, segment, finalizeActiveSegment, hactive, h]

theorem finish_worldStateReplay :
    st.finish.worldStateReplay = st.worldStateReplay ++ st.segment.worldStateReplay := by
  cases hactive : st.activeSegment <;> simp [finish, segment, finalizeActiveSegment, hactive, h]

theorem finish_rolloutSuffix : st.finish.rolloutSuffix = st.rolloutSuffix := by
  cases hactive : st.activeSegment <;> simp [finish, finalizeActiveSegment, hactive, h]

theorem finish_pendingRollbackTurns : st.finish.pendingRollbackTurns = 0 := by
  cases hactive : st.activeSegment <;> simp [finish, finalizeActiveSegment, hactive, h]

theorem finish_completed (hcounts : st.segment.countsAsUserTurn) (hsettings : st.segment.previousTurnSettings.isSome)
    (hreference : st.segment.referenceContextItem ≠ .neverSet) :
    st.finish.previousTurnSettings.isSome ∧ st.finish.referenceContextItem ≠ .neverSet := by
  cases hactive : st.activeSegment with
  | none =>
    rw [segment, hactive] at hcounts
    cases hcounts
  | some active =>
    rw [segment, hactive, getD_some] at hcounts hsettings hreference
    simp only [finish, finalizeActiveSegment, hactive, h, hcounts, Nat.lt_irrefl, if_false, Bool.and_true,
      Bool.true_or]
    constructor
    · split
      · exact hsettings
      next hsome =>
        rw [Bool.not_eq_true, ← not_isSome, Bool.not_eq_false'] at hsome
        exact hsome
    · split
      · exact hreference
      next hset =>
        intro heq
        rw [heq] at hset
        exact hset rfl

end

end ScanState

/-! ## The suffix at the start -/

def ScanState.hasCheckpoint (st : ScanState) : Bool :=
  st.baseReplacementHistory.isSome || st.segment.baseReplacementHistory.isSome

/-- The two states differ at most in the suffix, and not in it once there is a checkpoint. -/
def SameButSuffix (st st' : ScanState) : Prop :=
  ∃ suffix, st' = { st with rolloutSuffix := suffix } ∧ (st.hasCheckpoint → st.rolloutSuffix = suffix)

namespace SameButSuffix

variable {st' : ScanState}

section

variable (h : SameButSuffix st st')

include h

theorem isComplete : st'.isComplete = st.isComplete := by
  obtain ⟨suffix, rfl, -⟩ := h
  rfl

theorem eq_of_base (hbase : st.baseReplacementHistory.isSome) : st' = st := by
  obtain ⟨suffix, rfl, hsuffix⟩ := h
  have heq : st.rolloutSuffix = suffix := hsuffix (by rw [ScanState.hasCheckpoint, hbase, Bool.true_or])
  rw [← heq]

/-- A segment brings a checkpoint to the state only if it has one. -/
theorem finalize (segment : ActiveReplaySegment) (hactive : st.activeSegment = some segment) :
    SameButSuffix (finalizeActiveSegment { st with activeSegment := none } segment)
      (finalizeActiveSegment { st' with activeSegment := none } segment) := by
  obtain ⟨suffix, rfl, hsuffix⟩ := h
  have hsegment : st.segment = segment := by rw [ScanState.segment, hactive, getD_some]
  rw [ScanState.hasCheckpoint, hsegment] at hsuffix
  simp only [finalizeActiveSegment]
  split
  · -- a turn that is taken back brings nothing
    have hold : ∀ st₁ : ScanState, st₁.baseReplacementHistory = st.baseReplacementHistory → st₁.activeSegment = none →
        st₁.rolloutSuffix = st.rolloutSuffix → st₁.hasCheckpoint → st₁.rolloutSuffix = suffix := by
      intro st₁ hbase hnone hsame hcheckpoint
      rw [ScanState.hasCheckpoint, ScanState.segment, hbase, hnone] at hcheckpoint
      simp only [getD_none, isSome_none, Bool.or_false] at hcheckpoint
      rw [hsame]
      exact hsuffix (by rw [hcheckpoint, Bool.true_or])
    split
    · exact ⟨suffix, rfl, hold _ rfl rfl rfl⟩
    · exact ⟨suffix, rfl, hold _ rfl rfl rfl⟩
  · refine ⟨suffix, rfl, ?_⟩
    intro hcheckpoint
    simp only [ScanState.hasCheckpoint, ScanState.segment, getD_none, isSome_none, Bool.or_false,
      isSome_or] at hcheckpoint
    exact hsuffix hcheckpoint

theorem finish : SameButSuffix st.finish st'.finish := by
  have hsame : st'.activeSegment = st.activeSegment := by
    obtain ⟨suffix, rfl, -⟩ := h
    rfl
  cases hactive : st.activeSegment with
  | some segment =>
    have hfinish := h.finalize segment hactive
    rw [ScanState.finish, ScanState.finish, hsame, hactive]
    exact hfinish
  | none =>
    rw [ScanState.finish, ScanState.finish, hsame, hactive]
    exact h

theorem scanItem (item : RolloutItem) (newer : List RolloutItem) :
    SameButSuffix (Session.scanItem ops st item newer) (Session.scanItem ops st' item newer) := by
  cases hitem : isSegmentItem item with
  | true =>
    obtain ⟨active, hread, hscan⟩ := @scanItem_of_isSegmentItem ops item hitem st newer
    obtain ⟨suffix, rfl, hsuffix⟩ := h
    rw [hscan suffix]
    have hself := hscan st.rolloutSuffix
    rw [hself]
    refine ⟨_, rfl, fun hcheckpoint => ?_⟩
    split
    · rfl
    · -- no new checkpoint
      rename_i hnew
      apply hsuffix
      change (st.baseReplacementHistory.isSome || (active.getD {}).baseReplacementHistory.isSome) at hcheckpoint
      rw [hread, ActiveReplaySegment.read_baseReplacementHistory] at hcheckpoint
      rw [ScanState.hasCheckpoint]
      cases hbase : st.segment.baseReplacementHistory with
      | some history => rw [isSome_some, Bool.or_true]
      | none =>
        rw [hbase, isNone_none, Bool.true_and, Bool.not_eq_true] at hnew
        rw [hbase, none_or, hnew] at hcheckpoint
        exact hcheckpoint
  | false =>
    cases item with
    | eventMsg event =>
      cases event with
      | threadRolledBack numTurns =>
        obtain ⟨suffix, rfl, hsuffix⟩ := h
        exact ⟨suffix, rfl, hsuffix⟩
      | turnStarted turnId =>
        have hsame : st'.activeSegment = st.activeSegment := by
          obtain ⟨suffix, rfl, -⟩ := h
          rfl
        rw [Session.scanItem, Session.scanItem, hsame]
        cases hactive : st.activeSegment with
        | some segment =>
          simp only
          split
          · exact h.finalize segment hactive
          · exact h
        | none => exact h
      | _ => cases hitem
    | _ => cases hitem

theorem scanLoop (items newer : List RolloutItem) :
    SameButSuffix (scanLoop ops items newer st) (scanLoop ops items newer st') := by
  induction items generalizing st st' newer with
  | nil => exact h
  | cons item older ih =>
    have hitem := @scanItem ops st st' h item newer
    rw [scanLoop, scanLoop]
    simp only [hitem.isComplete]
    split
    · exact hitem
    · exact ih hitem _

end

end SameButSuffix

end Dcode.Session
