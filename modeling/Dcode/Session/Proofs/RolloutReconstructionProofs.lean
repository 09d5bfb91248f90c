import Dcode.Session.Proofs.ReplayProofs
import Dcode.Session.Proofs.ScanProofs

/-!
# The rebuilt history

A live checkpoint is found and replayed from. Without one the replay should start from nothing at the beginning of
the rollout, but the scan has already moved its start behind a compaction that was rolled back; that is made up for
only when another compaction follows. `history_eq_expectedHistory_iff` puts the two together.
-/

namespace Dcode.Session

open Protocol List Option Block

variable {ops : RolloutOps}

theorem history_eq (items : List RolloutItem) : (reconstructHistoryFromRollout ops items).history =
      replay ops ((scan ops items).baseReplacementHistory.getD []) (scan ops items).rolloutSuffix := by
  cases hbase : (scan ops items).baseReplacementHistory with
  | none =>
    simp only [reconstructHistoryFromRollout, hbase]
    rfl
  | some base =>
    simp only [reconstructHistoryFromRollout, hbase]
    rw [foldl_replayItem_items]
    rfl

/-! ## Checkpoints and compactions -/

variable {rest : List RolloutItem} {history : List ResponseItem}

theorem newestCheckpoint_eq_some {items : List RolloutItem} (h : newestCheckpoint items = some (history, rest)) :
    newestCheckpoint rest = none ∧ ∃ older compacted, items = older ++ .compacted compacted :: rest ∧
      compacted.replacementHistory = some history := by
  induction items with
  | nil => simp [newestCheckpoint] at h
  | cons item items ih =>
    cases hnewer : newestCheckpoint items with
    | some checkpoint =>
      rw [newestCheckpoint, hnewer] at h
      obtain ⟨hrest, older, compacted, rfl, hc⟩ := ih (hnewer.trans h)
      exact ⟨hrest, item :: older, compacted, rfl, hc⟩
    | none =>
      rw [newestCheckpoint, hnewer, none_or] at h
      cases item with
      | compacted compacted =>
        obtain ⟨replacement, hc, heq⟩ := map_eq_some_iff.mp h
        obtain ⟨rfl, rfl⟩ := Prod.mk.inj heq
        exact ⟨hnewer, [], compacted, rfl, hc⟩
      | _ => cases h

theorem newestCheckpoint_eq_none_iff {items : List RolloutItem}
    (h : ∀ compacted, .compacted compacted ∈ items → compacted.replacementHistory.isSome) :
    newestCheckpoint items = none ↔ items.any isCompacted = false := by
  induction items with
  | nil => simp [newestCheckpoint]
  | cons item items ih =>
    have ih := ih fun compacted hc => h compacted (mem_cons_of_mem _ hc)
    cases item with
    | compacted compacted =>
      obtain ⟨replacement, hr⟩ := isSome_iff_exists.mp (h compacted mem_cons_self)
      simp [newestCheckpoint, checkpointAt, isCompacted, hr]
    | _ => simpa [newestCheckpoint, checkpointAt, isCompacted] using ih

theorem checkpoint_eq_none_iff (turn : Turn ops) (newer : List RolloutItem) :
    turn.checkpoint newer = none ↔ (Block.turn turn).compacts = false := by
  rw [Turn.checkpoint, map_eq_none_iff, newestCheckpoint_eq_none_iff turn.hasReplacement, Block.compacts]

theorem any_rollout (blocks : List (Block ops)) : (rollout blocks).any isCompacted = blocks.any compacts := by
  rw [rollout, any_flatMap]
  congr 1
  funext block
  cases block with
  | turn turn => simp [items, compacts, isCompacted]
  | rolledBack numTurns => rfl
  | outside item h =>
    cases item with
    | compacted compacted => cases h
    | _ => rfl

theorem eq_compacted_of_isCompacted {item : RolloutItem} (h : isCompacted item) :
    ∃ compacted, item = .compacted compacted := by
  cases item with
  | compacted compacted => exact ⟨compacted, rfl⟩
  | _ => cases h

variable {blocks : List (Block ops)}

theorem hasReplacement_rollout {compacted : CompactedItem} (h : .compacted compacted ∈ rollout blocks) :
    compacted.replacementHistory.isSome := by
  obtain ⟨block, -, hitem⟩ := mem_flatMap.mp h
  cases block with
  | turn turn =>
    simp only [items, mem_cons, mem_append, reduceCtorEq, false_or, not_mem_nil, or_false] at hitem
    exact turn.hasReplacement compacted hitem
  | rolledBack numTurns => simp [items] at hitem
  | outside item hout =>
    rw [items, mem_singleton] at hitem
    rw [← hitem] at hout
    cases hout

theorem checkpoint_eq_some {turn : Turn ops} {newer : List (Block ops)}
    (h : turn.checkpoint (rollout newer) = some (history, rest)) :
    (rest.any isCompacted = newer.any compacts) ∧
      ∃ older compacted, rollout (.turn turn :: newer) = older ++ .compacted compacted :: rest ∧
        compacted.replacementHistory = some history := by
  obtain ⟨⟨history', rest'⟩, hbody, heq⟩ := map_eq_some_iff.mp h
  obtain ⟨rfl, rfl⟩ := Prod.mk.inj heq
  obtain ⟨hnone, older, compacted, hsplit, hc⟩ := newestCheckpoint_eq_some hbody
  constructor
  · have hrest : rest'.any isCompacted = false := by
      refine (newestCheckpoint_eq_none_iff fun c hc => turn.hasReplacement c ?_).mp hnone
      rw [hsplit]
      exact mem_append_right _ (mem_cons_of_mem _ hc)
    rw [any_append, hrest, any_cons, any_rollout]
    rfl
  · refine ⟨.eventMsg (.turnStarted turn.id) :: older, compacted, ?_, hc⟩
    rw [rollout_turn, hsplit, append_assoc]
    rfl

theorem liveCheckpoint_eq_some (h : liveCheckpoint blocks = some (history, rest)) :
    ∃ older compacted, rollout blocks = older ++ .compacted compacted :: rest ∧
      compacted.replacementHistory = some history := by
  induction blocks with
  | nil => cases h
  | cons block newer ih =>
    have hnewer : liveCheckpoint newer = some (history, rest) →
        ∃ older compacted, rollout (block :: newer) = older ++ .compacted compacted :: rest ∧
          compacted.replacementHistory = some history := by
      intro hlive
      obtain ⟨older, compacted, heq, hc⟩ := ih hlive
      refine ⟨block.items ++ older, compacted, ?_, hc⟩
      rw [rollout, flatMap_cons, ← rollout, heq, append_assoc]
    cases block with
    | turn turn =>
      rw [liveCheckpoint_turn, or_eq_some_iff] at h
      rcases h with hlive | ⟨-, hturn⟩
      · exact hnewer hlive
      · split at hturn
        · exact (checkpoint_eq_some hturn).2
        · cases hturn
    | rolledBack numTurns => exact hnewer (by rwa [liveCheckpoint_rolledBack] at h)
    | outside item hitem => exact hnewer h

/-- What was read before does not change the newest live checkpoint. -/
theorem liveCheckpoint_append {read : List (Block ops)} {checkpoint : List ResponseItem × List RolloutItem}
    (h : liveCheckpoint read = some checkpoint) (unread : List (Block ops)) :
    liveCheckpoint (unread ++ read) = some checkpoint := by
  induction unread with
  | nil => exact h
  | cons block unread ih =>
    cases block with
    | turn turn => rw [cons_append, liveCheckpoint_turn, ih, some_or]
    | rolledBack numTurns => rw [cons_append, liveCheckpoint_rolledBack, ih]
    | outside item hitem => exact ih

/-! ## The suffix that is replayed -/

theorem replaySuffix_eq_none (h : replaySuffix blocks = none) : blocks.countP Block.compacts = 0 := by
  induction blocks with
  | nil => rfl
  | cons block newer ih =>
    cases block with
    | turn turn =>
      rw [replaySuffix, or_eq_none_iff, map_eq_none_iff, checkpoint_eq_none_iff] at h
      rw [countP_cons_of_neg (by simp [h.1]), ih h.2]
    | rolledBack numTurns | outside item hitem => exact ih h

/-- The suffix starts behind a compaction, and holds another one when two turns have one. -/
theorem replaySuffix_eq_some {suffix : List RolloutItem} (h : replaySuffix blocks = some suffix) :
    (suffix.any isCompacted ↔ 2 ≤ blocks.countP Block.compacts) ∧
      ∃ older compacted, rollout blocks = older ++ .compacted compacted :: suffix ∧
        compacted.replacementHistory.isSome := by
  induction blocks with
  | nil => cases h
  | cons block newer ih =>
    have hnewer : block.compacts = false → replaySuffix newer = some suffix →
        (suffix.any isCompacted ↔ 2 ≤ (block :: newer).countP Block.compacts) ∧
          ∃ older compacted, rollout (block :: newer) = older ++ .compacted compacted :: suffix ∧
            compacted.replacementHistory.isSome := by
      intro hblock hsuffix
      obtain ⟨hcount, older, compacted, heq, hc⟩ := ih hsuffix
      refine ⟨?_, block.items ++ older, compacted, ?_, hc⟩
      · rw [countP_cons_of_neg (by simp [hblock]), hcount]
      · rw [rollout, flatMap_cons, ← rollout, heq, append_assoc]
    cases block with
    | turn turn =>
      cases hturn : turn.checkpoint (rollout newer) with
      | none =>
        rw [replaySuffix, hturn] at h
        exact hnewer ((checkpoint_eq_none_iff turn _).mp hturn) h
      | some checkpoint =>
        obtain ⟨history, rest⟩ := checkpoint
        rw [replaySuffix, hturn] at h
        obtain rfl : rest = suffix := some.inj h
        obtain ⟨hany, older, compacted, heq, hc⟩ := checkpoint_eq_some hturn
        refine ⟨?_, older, compacted, heq, by rw [hc]; rfl⟩
        have hcompacts : (Block.turn turn).compacts := by
          by_contra hno
          rw [(checkpoint_eq_none_iff turn (rollout newer)).mpr (by simpa using hno)] at hturn
          cases hturn
        have hpos : newer.any Block.compacts ↔ 0 < newer.countP Block.compacts := by
          rw [countP_pos_iff, List.any_eq_true]
        rw [hany, hpos, countP_cons_of_pos hcompacts]
        omega
    | rolledBack numTurns | outside item hitem => exact hnewer rfl h

theorem countP_pos_of_replaySuffix {suffix : List RolloutItem} (h : replaySuffix blocks = some suffix) :
    0 < blocks.countP compacts := by
  obtain ⟨-, older, compacted, heq, -⟩ := replaySuffix_eq_some h
  have hany : blocks.any compacts := by
    rw [← any_rollout, heq]
    simp [isCompacted]
  rw [countP_pos_iff]
  exact any_eq_true.mp hany

/-- From a live checkpoint the replay reaches the same history wherever the suffix starts. -/
theorem replay_replaySuffix (h : liveCheckpoint blocks = some (history, rest)) (all : List RolloutItem) :
    replay ops history ((replaySuffix blocks).getD all) = replay ops history rest := by
  induction blocks with
  | nil => cases h
  | cons block newer ih =>
    cases block with
    | turn turn =>
      rw [liveCheckpoint_turn] at h
      cases hlive : liveCheckpoint newer with
      | none =>
        rw [hlive, none_or] at h
        split at h
        · rw [replaySuffix, h]
          rfl
        · cases h
      | some checkpoint =>
        rw [hlive] at h
        obtain rfl := some.inj h
        cases hturn : turn.checkpoint (rollout newer) with
        | none =>
          rw [replaySuffix, hturn]
          exact ih hlive
        | some checkpoint =>
          -- the suffix of the older turn replays the live compaction on its way
          obtain ⟨⟨history', rest'⟩, -, rfl⟩ := map_eq_some_iff.mp hturn
          obtain ⟨older, compacted, heq, hc⟩ := liveCheckpoint_eq_some hlive
          rw [replaySuffix, hturn, heq]
          change replay ops history (rest' ++ (.eventMsg (.turnComplete turn.id) ::
            (older ++ .compacted compacted :: rest))) = _
          rw [replay_append, replay_cons, replay_append, replay_compacted hc]
    | rolledBack numTurns =>
      rw [liveCheckpoint_rolledBack] at h
      exact ih h
    | outside item hitem => exact ih h

/-! ## The history -/

theorem history_of_liveCheckpoint (h : (liveCheckpoint blocks).isSome) :
    (reconstructHistoryFromRollout ops (rollout blocks)).history = expectedHistory blocks := by
  obtain ⟨unread, read, hsplit, hread, hend⟩ := scan_scanned blocks
  have hlive : (liveCheckpoint read).isSome := by
    rcases hend with rfl | hlive
    · rwa [hsplit] at h
    · exact hlive
  obtain ⟨⟨history, rest⟩, hcheckpoint⟩ := isSome_iff_exists.mp hlive
  have hblocks : liveCheckpoint blocks = some (history, rest) := by
    rw [hsplit]
    exact liveCheckpoint_append hcheckpoint unread
  rw [history_eq, hread.base, hread.suffix, hcheckpoint, map_some, getD_some,
    replay_replaySuffix hcheckpoint, expectedHistory, hblocks]

theorem history_of_none (h : liveCheckpoint blocks = none) :
    (reconstructHistoryFromRollout ops (rollout blocks)).history =
      replay ops [] ((replaySuffix blocks).getD (rollout blocks)) := by
  obtain ⟨unread, read, hsplit, hread, hend⟩ := scan_scanned blocks
  have hunread : unread = [] := by
    rcases hend with hunread | hlive
    · exact hunread
    · obtain ⟨checkpoint, hcheckpoint⟩ := isSome_iff_exists.mp hlive
      rw [hsplit, liveCheckpoint_append hcheckpoint unread] at h
      cases h
  obtain rfl : blocks = read := by rw [hsplit, hunread, nil_append]
  rw [history_eq, hread.base, hread.suffix, h]
  rfl

theorem history_of_checkpointKept (h : CheckpointKept blocks) :
    (reconstructHistoryFromRollout ops (rollout blocks)).history = expectedHistory blocks := by
  cases hlive : liveCheckpoint blocks with
  | some checkpoint => exact history_of_liveCheckpoint (by rw [hlive]; rfl)
  | none =>
    have hcount : blocks.countP compacts ≠ 1 := by
      rcases h with h | h
      · rw [hlive] at h
        cases h
      · exact h
    rw [history_of_none hlive, expectedHistory, hlive]
    cases hsuffix : replaySuffix blocks with
    | none => rfl
    | some suffix =>
      obtain ⟨hany, older, compacted, heq, hc⟩ := replaySuffix_eq_some hsuffix
      have hpos : 0 < blocks.countP compacts := countP_pos_of_replaySuffix hsuffix
      have htwo : 2 ≤ blocks.countP compacts := by omega
      obtain ⟨item, hmem, hitem⟩ := any_eq_true.mp (hany.mpr htwo)
      obtain ⟨newest, rfl⟩ := eq_compacted_of_isCompacted hitem
      have hreplacement : newest.replacementHistory.isSome := by
        refine @hasReplacement_rollout ops blocks newest ?_
        rw [heq]
        exact mem_append_right _ (mem_cons_of_mem _ hmem)
      rw [heq, replay_append, replay_cons]
      exact replay_of_compacted hmem hreplacement _ _

/-! ## Where it is lost -/

section

variable (f : CompactedItem → List ResponseItem)

theorem compacts_withReplacement (block : Block ops) : (block.withReplacement f).compacts = block.compacts := by
  cases block with
  | turn turn =>
    simp only [withReplacement, compacts, Turn.withReplacement, List.any_map]
    refine any_congr rfl fun item => ?_
    cases item <;> rfl
  | _ => rfl

theorem countP_withReplacement (blocks : List (Block ops)) :
    (blocks.map (withReplacement f)).countP compacts = blocks.countP compacts := by
  rw [countP_map]
  exact countP_congr fun block _ => by rw [Function.comp_apply, compacts_withReplacement]

theorem pendingTurns_withReplacement (blocks : List (Block ops)) :
    pendingTurns (blocks.map (withReplacement f)) = pendingTurns blocks := by
  induction blocks with
  | nil => rfl
  | cons block newer ih =>
    cases block with
    | turn turn => rw [map_cons, withReplacement, pendingTurns_turn, pendingTurns_turn, ih]
    | rolledBack numTurns =>
      change pendingTurns (.rolledBack numTurns :: newer.map (withReplacement f)) = _
      rw [pendingTurns_rolledBack, pendingTurns_rolledBack, ih]
    | outside item hitem => exact ih

/-- Which turns are live does not depend on the replacement histories. -/
theorem liveCheckpoint_withReplacement (blocks : List (Block ops)) :
    liveCheckpoint (blocks.map (Block.withReplacement f)) = none ↔ liveCheckpoint blocks = none := by
  induction blocks with
  | nil => exact Iff.rfl
  | cons block newer ih =>
    cases block with
    | turn turn =>
      have hcompacts := compacts_withReplacement f (Block.turn turn)
      rw [map_cons, Block.withReplacement, liveCheckpoint_turn, liveCheckpoint_turn, or_eq_none_iff,
        or_eq_none_iff, ih, pendingTurns_withReplacement]
      split
      · rw [checkpoint_eq_none_iff, checkpoint_eq_none_iff, ← hcompacts, Block.withReplacement]
      · exact Iff.rfl
    | rolledBack numTurns =>
      change liveCheckpoint (.rolledBack numTurns :: newer.map (Block.withReplacement f)) = none ↔ _
      rw [liveCheckpoint_rolledBack, liveCheckpoint_rolledBack, ih]
    | outside item hitem => exact ih

theorem replacement_withReplacement {blocks : List (Block ops)} {compacted : CompactedItem}
    (h : .compacted compacted ∈ rollout (blocks.map (withReplacement f))) :
    ∃ original, compacted.replacementHistory = some (f original) := by
  obtain ⟨block, hblock, hitem⟩ := mem_flatMap.mp h
  obtain ⟨block, -, rfl⟩ := mem_map.mp hblock
  cases block with
  | turn turn =>
    simp only [withReplacement, items, mem_cons, mem_append, reduceCtorEq, false_or, not_mem_nil, or_false] at hitem
    obtain ⟨item, -, heq⟩ := mem_map.mp hitem
    cases item with
    | compacted original =>
      obtain rfl := RolloutItem.compacted.inj heq
      exact ⟨original, rfl⟩
    | _ => cases heq
  | rolledBack numTurns => simp [withReplacement, items] at hitem
  | outside item hout =>
    simp only [withReplacement, items, mem_singleton] at hitem
    rw [← hitem] at hout
    cases hout

end

/-- Without a live checkpoint, and with compactions in one turn only, a replacement history that is no turn of the
user is lost: the replay leaves it out, where the whole rollout keeps it. -/
theorem history_ne_expectedHistory (h : ¬ CheckpointKept blocks) :
    let others := blocks.map (withReplacement fun _ => [.other])
    (reconstructHistoryFromRollout ops (rollout others)).history ≠ expectedHistory others := by
  intro others
  rw [CheckpointKept, not_or, not_not] at h
  have hnone : liveCheckpoint blocks = none := by simpa using h.1
  have hlive : liveCheckpoint others = none := (liveCheckpoint_withReplacement _ blocks).mpr hnone
  have hcount : others.countP compacts = 1 := by rw [countP_withReplacement, h.2]
  cases hsuffix : replaySuffix others with
  | none =>
    rw [replaySuffix_eq_none hsuffix] at hcount
    cases hcount
  | some suffix =>
    obtain ⟨hany, older, compacted, heq, -⟩ := replaySuffix_eq_some hsuffix
    have hmem : .compacted compacted ∈ rollout others := by
      rw [heq]
      exact mem_append_right _ mem_cons_self
    obtain ⟨-, hc⟩ := replacement_withReplacement _ hmem
    have hplain : ∀ item ∈ suffix, isCompacted item = false := by
      intro item hitem
      by_contra hcompacted
      have htwo := hany.mp (any_eq_true.mpr ⟨item, hitem, by simpa using hcompacted⟩)
      omega
    have hfront : replay ops ([.other] ++ []) suffix = [.other] ++ replay ops [] suffix := by
      refine replay_append_left (fun item hitem => ?_) hplain []
      rw [mem_singleton.mp hitem]
      rfl
    rw [history_of_none hlive, expectedHistory, hlive, hsuffix]
    rw [heq, replay_append, replay_compacted hc, ← append_nil [ResponseItem.other], hfront]
    intro heq
    have hlength := congrArg length heq
    simp at hlength

/-- The rebuilt history is the one that a session should have when a compaction is live, or compactions occur in
no turn or in more than one; in every other rollout this depends on what the compactions replaced the history
with, and fails for some replacement. -/
theorem history_eq_expectedHistory_iff (blocks : List (Block ops)) : (CheckpointKept blocks →
      (reconstructHistoryFromRollout ops (rollout blocks)).history = expectedHistory blocks) ∧
    (CheckpointKept blocks ↔ ∀ f : CompactedItem → List ResponseItem,
      (reconstructHistoryFromRollout ops (rollout (blocks.map (Block.withReplacement f)))).history =
        expectedHistory (blocks.map (Block.withReplacement f))) := by
  refine ⟨history_of_checkpointKept, fun h f => ?_, fun h => ?_⟩
  · apply history_of_checkpointKept
    rw [CheckpointKept, countP_withReplacement, isSome_iff_ne_none, Ne, liveCheckpoint_withReplacement]
    rwa [CheckpointKept, isSome_iff_ne_none] at h
  · by_contra hlost
    exact history_ne_expectedHistory hlost (h _)

/-! ## A compaction that was rolled back -/

def plainOps : RolloutOps where
  isHookPrompt _ := false
  isStandardContextualUserText _ := false
  interAgentFromStr _ := none
  truncateFunctionOutputPayload output := output
  uuidParseStr _ := none

def userMessage (text : Str) : ResponseItem := .message none "user".toList [.inputText text] none none

theorem hasReplacement_responseItem (item : ResponseItem) (compacted : CompactedItem)
    (hcompacted : .compacted compacted ∈ [RolloutItem.responseItem item]) :
    compacted.replacementHistory.isSome := by
  cases mem_singleton.mp hcompacted

theorem isTurnItem_userMessage : ∀ item ∈ [RolloutItem.responseItem (userMessage ['a'])], isTurnItem item := by
  simp [isTurnItem]

theorem hasInstruction_userMessage : [RolloutItem.responseItem (userMessage ['a'])].any (isUserInstruction plainOps) := by
  decide +kernel

def firstTurn : Turn plainOps where
  id := ['1']
  body := [.responseItem (userMessage ['a'])]
  isTurnItem := isTurnItem_userMessage
  hasInstruction := hasInstruction_userMessage
  hasReplacement := hasReplacement_responseItem _

def compactingBody : List RolloutItem :=
  [.responseItem (userMessage ['b']), .compacted { replacementHistory := some [userMessage ['a'], userMessage ['b']] }]

theorem isTurnItem_compactingBody : ∀ item ∈ compactingBody, isTurnItem item := by simp [compactingBody, isTurnItem]

theorem hasInstruction_compactingBody : compactingBody.any (isUserInstruction plainOps) := by decide +kernel

theorem hasReplacement_compactingBody : ∀ compacted, .compacted compacted ∈ compactingBody →
    compacted.replacementHistory.isSome := by
  simp [compactingBody]

def compactingTurn : Turn plainOps where
  id := ['2']
  body := compactingBody
  isTurnItem := isTurnItem_compactingBody
  hasInstruction := hasInstruction_compactingBody
  hasReplacement := hasReplacement_compactingBody

theorem history_eq_expectedHistory_compacted : CheckpointKept [.turn firstTurn, .turn compactingTurn] ∧
      (reconstructHistoryFromRollout plainOps (rollout [.turn firstTurn, .turn compactingTurn])).history =
        expectedHistory [.turn firstTurn, .turn compactingTurn] := by
  have hkept : CheckpointKept [.turn firstTurn, .turn compactingTurn] := by decide +kernel
  exact ⟨hkept, (history_eq_expectedHistory_iff _).1 hkept⟩

/-- The second turn, with its compaction, is rolled back: the first turn is lost with it. -/
theorem history_rolledBackCompaction : (reconstructHistoryFromRollout plainOps
      (rollout [.turn firstTurn, .turn compactingTurn, .rolledBack 1])).history = [] ∧
    expectedHistory [.turn firstTurn, .turn compactingTurn, .rolledBack 1] = [userMessage ['a']] := by
  decide +kernel

end Dcode.Session
