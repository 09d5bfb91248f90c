import Dcode.Session.Proofs.SegmentProofs

/-!
# What the scan finds

Inside a turn the scan only fills the segment of that turn (`InTurn`); at the beginning of the turn the segment is
dropped or kept. Between turns the scan has the live checkpoint of what it has seen, if there is one, and the
replay suffix behind the newest compaction of the oldest turn that has one, live or not (`Scanned`).
-/

namespace Dcode.Session

open List RollbackLog Option

variable {ops : RolloutOps}

/-! ## Inside a turn -/

/-- The scan has read the end of a turn and the items `scanned` of its body, and was in `st₀` before. -/
structure InTurn (ops : RolloutOps) (st₀ st : ScanState) (id : Str) (scanned newer : List RolloutItem) : Prop where
  base : st.baseReplacementHistory = st₀.baseReplacementHistory
  settings : st.previousTurnSettings = st₀.previousTurnSettings
  reference : st.referenceContextItem = st₀.referenceContextItem
  pending : st.pendingRollbackTurns = st₀.pendingRollbackTurns
  suffix : st.rolloutSuffix = (newestCheckpoint scanned).elim st₀.rolloutSuffix fun checkpoint => checkpoint.2 ++ newer
  segment : ∃ segment, st.activeSegment = some segment ∧ segment.turnId = some id ∧
    segment.countsAsUserTurn = scanned.any (isUserInstruction ops) ∧
    segment.baseReplacementHistory = (newestCheckpoint scanned).map Prod.fst

variable {st₀ st : ScanState} {id : Str} {scanned newer : List RolloutItem}

theorem InTurn.isComplete (h : InTurn ops st₀ st id scanned newer) : st.isComplete = st₀.isComplete := by
  rw [ScanState.isComplete, h.base, h.settings, h.reference, ScanState.isComplete]

variable {item : RolloutItem}

theorem isSegmentItem_of_isTurnItem (h : isTurnItem item) : isSegmentItem item := by
  cases item with
  | eventMsg event =>
    cases event with
    | turnStarted turnId | threadRolledBack numTurns => cases h
    | _ => rfl
  | _ => rfl

theorem ActiveReplaySegment.read_turnId {segment : ActiveReplaySegment} (h : segment.turnId = some id) (item : RolloutItem) :
    (segment.read ops item).turnId = some id := by
  cases item with
  | turnContext ctx => rw [read, segment.attach_turnId, h, some_or]
  | eventMsg event =>
    cases event with
    | turnComplete turnId | turnAborted turnId => rw [read, h, some_or]
    | _ => exact h
  | _ => exact h

theorem checkpointAt_eq (rest : List RolloutItem) (item : RolloutItem) :
    checkpointAt rest item = (replacementOf item).map fun history => (history, rest) := by
  cases item <;> rfl

theorem InTurn.step (h : InTurn ops st₀ st id scanned newer) (hitem : isTurnItem item) :
    InTurn ops st₀ (scanItem ops st item (scanned ++ newer)) id (item :: scanned) newer := by
  obtain ⟨segment, hactive, hid, hcounts, hbase⟩ := h.segment
  have hsegment : st.segment = segment := by rw [ScanState.segment, hactive, getD_some]
  obtain ⟨active, hread, hscan⟩ :=
    @scanItem_of_isSegmentItem ops item (isSegmentItem_of_isTurnItem hitem) st (scanned ++ newer)
  have hself := hscan st.rolloutSuffix
  rw [hsegment] at hread hself
  have hreadId := @segment.read_turnId ops id hid item
  -- a segment with an id is there
  obtain ⟨active, rfl⟩ : ∃ segment, active = some segment := by
    cases active with
    | some active => exact ⟨active, rfl⟩
    | none =>
      rw [← hread] at hreadId
      cases hreadId
  obtain rfl : active = segment.read ops item := hread
  rw [hself]
  refine ⟨h.base, h.settings, h.reference, h.pending, ?_, _, rfl, hreadId, ?_, ?_⟩
  · rw [newestCheckpoint, checkpointAt_eq, hbase, h.suffix]
    cases newestCheckpoint scanned <;> cases replacementOf item <;> rfl
  · rw [segment.read_countsAsUserTurn, hcounts, any_cons, Bool.or_comm]
  · rw [segment.read_baseReplacementHistory, hbase, newestCheckpoint, checkpointAt_eq]
    cases newestCheckpoint scanned <;> cases replacementOf item <;> rfl

theorem InTurn.scanLoop (h : InTurn ops st₀ st id [] newer) (hcomplete : st₀.isComplete = false)
    {body : List RolloutItem} (hbody : ∀ item ∈ body, isTurnItem item) (older : List RolloutItem) :
    ∃ st', InTurn ops st₀ st' id body newer ∧
      scanLoop ops (body.reverse ++ older) newer st = scanLoop ops older (body ++ newer) st' := by
  induction body generalizing older with
  | nil => exact ⟨st, h, rfl⟩
  | cons item body ih =>
    rw [forall_mem_cons] at hbody
    obtain ⟨st', hst', heq⟩ := ih hbody.2 (item :: older)
    have hstep := hst'.step hbody.1
    refine ⟨_, hstep, ?_⟩
    rw [reverse_cons, append_assoc, singleton_append, heq, Session.scanLoop]
    simp only [hstep.isComplete, hcomplete]
    rfl

/-! ## Between turns -/

@[simp] theorem finalizeActiveSegment_activeSegment (st : ScanState) (segment : ActiveReplaySegment) :
    (finalizeActiveSegment st segment).activeSegment = st.activeSegment := by
  rw [finalizeActiveSegment]
  split
  · split <;> rfl
  · rfl

/-- A turn of the user is one turn less to skip. -/
theorem finalizeActiveSegment_pendingRollbackTurns (st : ScanState) (segment : ActiveReplaySegment) :
    (finalizeActiveSegment st segment).pendingRollbackTurns =
      if segment.countsAsUserTurn then st.pendingRollbackTurns - 1 else st.pendingRollbackTurns := by
  rw [finalizeActiveSegment]
  split
  · split <;> rfl
  · have hzero : st.pendingRollbackTurns = 0 := by omega
    simp [hzero]

/-- What the scan keeps for the replay: everything behind the newest compaction of the oldest turn that has one. -/
def replaySuffix : List (Block ops) → Option (List RolloutItem)
  | [] => none
  | .turn turn :: newer => ((turn.checkpoint (rollout newer)).map Prod.snd).or (replaySuffix newer)
  | _ :: newer => replaySuffix newer

/-- The number of live turns of the user that are still to be skipped. -/
def pendingTurns (blocks : List (Block ops)) : Nat := RollbackLog.pending (turnLog blocks).reverse 0

/-- The scan has read `blocks`, at the end of the rollout `all`, and is between two turns. -/
structure Scanned (all : List RolloutItem) (st : ScanState) (blocks : List (Block ops)) : Prop where
  active : st.activeSegment = none
  pending : st.pendingRollbackTurns = pendingTurns blocks
  base : st.baseReplacementHistory = (liveCheckpoint blocks).map Prod.fst
  suffix : st.rolloutSuffix = (replaySuffix blocks).getD all

theorem liveTurns_eq (blocks : List (Block ops)) : liveTurns blocks = scanBack (turnLog blocks).reverse 0 := by
  rw [scanBack_reverse, drop_zero, liveTurns]

theorem pendingTurns_turn (turn : Turn ops) (newer : List (Block ops)) :
    pendingTurns (.turn turn :: newer) = pendingTurns newer - 1 := by
  rw [pendingTurns, turnLog, reverse_cons, pending_append]
  change RollbackLog.pending _ (pendingTurns newer) = _
  cases pendingTurns newer <;> rfl

theorem pendingTurns_rolledBack (numTurns : Nat) (newer : List (Block ops)) :
    pendingTurns (.rolledBack numTurns :: newer) = pendingTurns newer + numTurns := by
  rw [pendingTurns, turnLog, reverse_cons, pending_append]
  rfl

theorem liveCheckpoint_turn (turn : Turn ops) (newer : List (Block ops)) : liveCheckpoint (.turn turn :: newer) =
      (liveCheckpoint newer).or (if pendingTurns newer = 0 then turn.checkpoint (rollout newer) else none) := by
  have hlive : liveTurns (.turn turn :: newer) =
      liveTurns newer ++ if pendingTurns newer = 0 then [(turn, rollout newer)] else [] := by
    rw [liveTurns_eq, turnLog, reverse_cons, scanBack_append, ← liveTurns_eq]
    change _ ++ scanBack _ (pendingTurns newer) = _
    cases pendingTurns newer <;> rfl
  rw [liveCheckpoint, hlive, liveCheckpoint]
  split <;> simp

theorem liveCheckpoint_rolledBack (numTurns : Nat) (newer : List (Block ops)) :
    liveCheckpoint (.rolledBack numTurns :: newer) = liveCheckpoint newer := by
  have hlive : liveTurns (.rolledBack numTurns :: newer) = liveTurns newer := by
    rw [liveTurns_eq, turnLog, reverse_cons, scanBack_append, ← liveTurns_eq]
    exact append_nil _
  rw [liveCheckpoint, hlive, liveCheckpoint]

variable {all : List RolloutItem} {newer : List (Block ops)}

/-- At the beginning of a turn its segment is dropped when a rollback takes it back, and counts otherwise. -/
theorem Scanned.finalize (h : Scanned all st₀ newer) {turn : Turn ops}
    (hturn : InTurn ops st₀ st turn.id turn.body (.eventMsg (.turnComplete turn.id) :: rollout newer)) :
    Scanned all (scanItem ops st (.eventMsg (.turnStarted turn.id)) (turn.body ++
      .eventMsg (.turnComplete turn.id) :: rollout newer)) (.turn turn :: newer) := by
  obtain ⟨segment, hactive, hid, hcounts, hbase⟩ := hturn.segment
  have hitem : scanItem ops st (.eventMsg (.turnStarted turn.id)) (turn.body ++
      .eventMsg (.turnComplete turn.id) :: rollout newer) =
      finalizeActiveSegment { st with activeSegment := none } segment := by
    simp [scanItem, hactive, hid, turnIdsAreCompatible]
  have hcounts : segment.countsAsUserTurn := hcounts.trans turn.hasInstruction
  have hpending : st.pendingRollbackTurns = pendingTurns newer := hturn.pending.trans h.pending
  have hstbase := hturn.base.trans h.base
  have hsuffix : st.rolloutSuffix = (replaySuffix (.turn turn :: newer)).getD all := by
    rw [hturn.suffix, h.suffix, replaySuffix, Turn.checkpoint]
    cases newestCheckpoint turn.body <;> simp
  rw [hitem, finalizeActiveSegment]
  by_cases hp : 0 < pendingTurns newer
  · -- the turn is taken back
    simp only [hpending, hp, if_true, hcounts]
    refine ⟨rfl, ?_, ?_, hsuffix⟩
    · rw [pendingTurns_turn]
    · have hne : pendingTurns newer ≠ 0 := by omega
      rw [liveCheckpoint_turn, if_neg hne, or_none]
      exact hstbase
  · have hzero : pendingTurns newer = 0 := by omega
    simp only [hpending, hp, if_false]
    refine ⟨rfl, ?_, ?_, hsuffix⟩
    · rw [pendingTurns_turn, hzero]
    · rw [liveCheckpoint_turn, if_pos hzero, Turn.checkpoint, hstbase, hbase]
      cases liveCheckpoint newer <;> cases newestCheckpoint turn.body <;> rfl

theorem rollout_turn (turn : Turn ops) (newer : List (Block ops)) : rollout (.turn turn :: newer) =
    .eventMsg (.turnStarted turn.id) :: (turn.body ++ .eventMsg (.turnComplete turn.id) :: rollout newer) := by
  simp [rollout, Block.items]

theorem Scanned.step (h : Scanned all st newer) (hcomplete : st.isComplete = false)
    (block : Block ops) (older : List RolloutItem) :
    ∃ st', Scanned all st' (block :: newer) ∧ scanLoop ops (block.items.reverse ++ older) (rollout newer) st =
        if st'.isComplete then st' else scanLoop ops older (rollout (block :: newer)) st' := by
  cases block with
  | turn turn =>
    have hstart : InTurn ops st (scanItem ops st (.eventMsg (.turnComplete turn.id)) (rollout newer)) turn.id []
        (.eventMsg (.turnComplete turn.id) :: rollout newer) := by
      refine ⟨rfl, rfl, rfl, rfl, rfl, { turnId := some turn.id }, ?_, rfl, rfl, rfl⟩
      simp [scanItem, h.active]
    obtain ⟨st', hst', heq⟩ :=
      hstart.scanLoop hcomplete turn.isTurnItem (.eventMsg (.turnStarted turn.id) :: older)
    refine ⟨_, h.finalize hst', ?_⟩
    have hitems : (Block.turn turn).items.reverse ++ older = .eventMsg (.turnComplete turn.id) ::
        (turn.body.reverse ++ .eventMsg (.turnStarted turn.id) :: older) := by
      simp [Block.items]
    rw [hitems, rollout_turn, scanLoop]
    simp only [hstart.isComplete, hcomplete, Bool.false_eq_true, if_false]
    rw [heq, scanLoop]
  | rolledBack numTurns =>
    refine ⟨scanItem ops st (.eventMsg (.threadRolledBack numTurns)) (rollout newer), ⟨h.active, ?_, ?_, h.suffix⟩, rfl⟩
    · rw [pendingTurns_rolledBack, ← h.pending]
      rfl
    · rw [liveCheckpoint_rolledBack, ← h.base]
      rfl
  | outside item hitem =>
    have hsame : scanItem ops st item (rollout newer) = st := by
      cases item with
      | eventMsg event =>
        cases event with
        | other => rfl
        | _ => simp [isOutsideTurn] at hitem
      | sessionMeta _ | interAgentCommunicationMetadata _ => rfl
      | _ => simp [isOutsideTurn] at hitem
    refine ⟨scanItem ops st item (rollout newer), ?_, rfl⟩
    rw [hsame]
    exact ⟨h.active, h.pending, h.base, h.suffix⟩

/-- The loop reads parts from the newest on until it is complete or has read them all. -/
theorem Scanned.scanLoop (h : Scanned all st newer) (hcomplete : st.isComplete = false) (older : List (Block ops)) :
    ∃ unread read, older = unread ++ read ∧
      Scanned all (scanLoop ops (rollout older).reverse (rollout newer) st) (read ++ newer) ∧
      (unread = [] ∨ (scanLoop ops (rollout older).reverse (rollout newer) st).baseReplacementHistory.isSome) := by
  induction older using List.reverseRecOn generalizing st newer with
  | nil => exact ⟨[], [], rfl, h, .inl rfl⟩
  | append_singleton older block ih =>
    obtain ⟨st', hst', heq⟩ := h.step hcomplete block (rollout older).reverse
    have hrollout : (rollout (older ++ [block])).reverse = block.items.reverse ++ (rollout older).reverse := by
      simp [rollout]
    rw [hrollout, heq]
    by_cases hdone : st'.isComplete
    · rw [if_pos hdone]
      have hbase : st'.baseReplacementHistory.isSome := by
        simp only [ScanState.isComplete, Bool.and_eq_true] at hdone
        exact hdone.1.1
      exact ⟨older, [block], rfl, hst', .inr hbase⟩
    · rw [if_neg hdone]
      obtain ⟨unread, read, hsplit, hread, hend⟩ := ih hst' (by simpa using hdone)
      refine ⟨unread, read ++ [block], by rw [hsplit, append_assoc], ?_, hend⟩
      rw [append_assoc]
      exact hread

/-- The scan ends between two turns, with the parts it has read. -/
theorem scan_scanned (blocks : List (Block ops)) :
    ∃ unread read, blocks = unread ++ read ∧ Scanned (rollout blocks) (scan ops (rollout blocks)) read ∧
      (unread = [] ∨ (liveCheckpoint read).isSome) := by
  have hstart : Scanned (rollout blocks) { rolloutSuffix := rollout blocks } ([] : List (Block ops)) :=
    ⟨rfl, rfl, rfl, rfl⟩
  obtain ⟨unread, read, hsplit, hread, hend⟩ := hstart.scanLoop rfl blocks
  rw [append_nil] at hread
  have hscan : scan ops (rollout blocks) =
      scanLoop ops (rollout blocks).reverse [] { rolloutSuffix := rollout blocks } := by
    have hactive := hread.active
    change (scanLoop ops (rollout blocks).reverse [] _).activeSegment = none at hactive
    rw [scan, hactive]
  refine ⟨unread, read, hsplit, hscan ▸ hread, hend.imp_right fun hbase => ?_⟩
  rw [hread.base, isSome_map] at hbase
  exact hbase

end Dcode.Session
