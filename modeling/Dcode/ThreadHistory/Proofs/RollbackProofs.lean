import Dcode.ThreadHistory.Proofs.BuilderProofs
import Dcode.Session.Proofs.RolloutReconstructionProofs

/-!
# Rollbacks in the shown history and in the context of the model

The reverse scan of the reconstruction skips turns until it has passed as many turns with an instruction as are
to be taken back (`keptTurnIds_eq`). So it keeps what is shown exactly if a turn without an instruction is only
ever taken back together with every turn before it.
-/

namespace Dcode.ThreadHistory

open Session List PersistedItem RollbackLog ExplicitTurn TurnBlock

variable {ops : RolloutOps}

/-! ## The reverse scan -/

theorem isTurnItem_toRolloutItem {item : PersistedItem} (h : isInsideTurn item) : isTurnItem item.toRolloutItem := by
  cases item with
  | event event => rfl
  | item item =>
    cases item with
    | eventMsg event =>
      cases event with
      | userMessage | turnAborted turnId | other => rfl
      | _ => simp [isInsideTurn] at h
    | _ => rfl

theorem survivor_of_isTurnItem {item : RolloutItem} (h : isTurnItem item) (st : ScanState) :
    st.survivor item = none := by
  cases item with
  | eventMsg event =>
    cases event with
    | turnStarted turnId => simp [isTurnItem] at h
    | _ => rfl
  | _ => rfl

variable {st : ScanState}

theorem survivingTurns_body {st₀ : ScanState} {id : Str} {newer : List RolloutItem} (h : InTurn ops st₀ st id [] newer)
    {body : List RolloutItem} (hbody : ∀ item ∈ body, isTurnItem item) (older : List RolloutItem) :
    ∃ st', InTurn ops st₀ st' id body newer ∧
      survivingTurns ops (body.reverse ++ older) newer st = survivingTurns ops older (body ++ newer) st' := by
  induction body generalizing older with
  | nil => exact ⟨st, h, rfl⟩
  | cons item body ih =>
    rw [forall_mem_cons] at hbody
    obtain ⟨st', hst', heq⟩ := ih hbody.2 (item :: older)
    refine ⟨_, hst'.step hbody.1, ?_⟩
    rw [reverse_cons, append_assoc, singleton_append, heq, survivingTurns, survivor_of_isTurnItem hbody.1]
    rfl

/-- The number of turns to skip before a turn, when there are `skip` to skip behind it. -/
def skipBefore (ops : RolloutOps) (turn : ExplicitTurn) (skip : Nat) : Nat :=
  if turn.hasInstruction ops then skip - 1 else skip

/-- The state at the beginning of a turn, where its segment is finalized. -/
theorem survivingTurns_turn (hactive : st.activeSegment = none) (turn : ExplicitTurn) (older newer : List RolloutItem) :
    ∃ newer' st', st'.activeSegment = none ∧ st'.pendingRollbackTurns = skipBefore ops turn st.pendingRollbackTurns ∧
      survivingTurns ops (((TurnBlock.turn turn).items.map toRolloutItem).reverse ++ older) newer st =
        (if st.pendingRollbackTurns = 0 then [turn.id] else []) ++ survivingTurns ops older newer' st' := by
  have hstart : InTurn ops st (scanItem ops st (.eventMsg (.turnComplete turn.id)) newer) turn.id []
      (.eventMsg (.turnComplete turn.id) :: newer) := by
    refine ⟨rfl, rfl, rfl, rfl, rfl, { turnId := some turn.id }, ?_, rfl, rfl, rfl⟩
    simp [scanItem, hactive]
  have hbody : ∀ item ∈ turn.body.map toRolloutItem, isTurnItem item := by
    intro item hitem
    obtain ⟨persisted, hpersisted, rfl⟩ := mem_map.mp hitem
    exact isTurnItem_toRolloutItem (turn.isInside persisted hpersisted)
  obtain ⟨st', hst', heq⟩ := survivingTurns_body hstart hbody (.eventMsg (.turnStarted turn.id) :: older)
  obtain ⟨segment, hsegment, hid, hcounts, -⟩ := hst'.segment
  have hitems : ((TurnBlock.turn turn).items.map toRolloutItem).reverse ++ older = .eventMsg (.turnComplete turn.id) ::
        ((turn.body.map toRolloutItem).reverse ++ .eventMsg (.turnStarted turn.id) :: older) := by
    simp [TurnBlock.items, toRolloutItem]
  have hcompatible : turnIdsAreCompatible segment.turnId (some turn.id) := by
    simp [turnIdsAreCompatible, hid]
  have hfinal : ∀ newer', scanItem ops st' (.eventMsg (.turnStarted turn.id)) newer' =
      finalizeActiveSegment { st' with activeSegment := none } segment := by
    intro newer'
    simp [scanItem, hsegment, hcompatible]
  have hsurvivor : (st'.survivor (.eventMsg (.turnStarted turn.id))).toList =
      if st.pendingRollbackTurns = 0 then [turn.id] else [] := by
    simp only [ScanState.survivor, hsegment, hcompatible, hst'.pending, Bool.true_and, beq_iff_eq]
    split <;> rfl
  rw [hitems, survivingTurns, heq, survivingTurns, hsurvivor]
  refine ⟨_, _, ?_, ?_, rfl⟩
  · rw [hfinal, finalizeActiveSegment_activeSegment]
  · have hinstruction : segment.countsAsUserTurn = turn.hasInstruction ops := hcounts
    rw [hfinal, finalizeActiveSegment_pendingRollbackTurns, skipBefore, hinstruction, ← hst'.pending]

/-- The scan keeps what a reader keeps that counts only turns with an instruction. -/
theorem survivingTurns_eq (hactive : st.activeSegment = none) (blocks : List TurnBlock) (newer : List RolloutItem) :
    survivingTurns ops ((turnRollout blocks).map toRolloutItem).reverse newer st =
      (scanBackCounted (hasInstruction ops) (blocks.map entry).reverse
        st.pendingRollbackTurns).map (·.id) := by
  induction blocks using reverseRecOn generalizing st newer with
  | nil =>
    change survivingTurns ops [] newer st = []
    rw [survivingTurns, hactive]
  | append_singleton blocks block ih =>
    have hrollout : ((turnRollout (blocks ++ [block])).map toRolloutItem).reverse =
        (block.items.map toRolloutItem).reverse ++ ((turnRollout blocks).map toRolloutItem).reverse := by
      simp [turnRollout]
    rw [hrollout, map_append, map_singleton, reverse_concat]
    cases block with
    | turn turn =>
      obtain ⟨newer', st', hactive', hpending, heq⟩ := @survivingTurns_turn ops st hactive turn
        ((turnRollout blocks).map toRolloutItem).reverse newer
      rw [heq, ih hactive' newer', hpending]
      cases st.pendingRollbackTurns with
      | zero =>
        have hskip : skipBefore ops turn 0 = 0 := by
          rw [skipBefore]
          split <;> rfl
        rw [hskip]
        rfl
      | succ skip =>
        rfl
    | rolledBack numTurns =>
      have hstep := @ih (scanItem ops st (.eventMsg (.threadRolledBack numTurns)) newer) hactive
        (.eventMsg (.threadRolledBack numTurns) :: newer)
      exact hstep

theorem keptTurnIds_eq (blocks : List TurnBlock) : keptTurnIds ops blocks = (scanBackCounted (hasInstruction ops)
      (blocks.map entry).reverse 0).map (·.id) :=
  survivingTurns_eq rfl blocks []

/-! ## Where both agree -/

theorem liveTurns_eq_scanBack (blocks : List TurnBlock) : liveTurns blocks = scanBack (blocks.map entry).reverse 0 := by
  rw [scanBack_reverse, drop_zero, liveTurns]

theorem scanBack_sublist_turns (blocks : List TurnBlock) (skip : Nat) :
    (scanBack (blocks.map entry).reverse skip).Sublist (blocks.filterMap turn?).reverse := by
  have hsublist := scanBack_sublist (blocks.map entry).reverse skip
  have hentry : RollbackLog.Entry.pushed? ∘ entry = turn? := by
    funext block
    cases block <;> rfl
  rw [filterMap_reverse, filterMap_map, hentry] at hsublist
  exact hsublist

variable {blocks : List TurnBlock}

theorem id_mem_turnIds {turn : ExplicitTurn} (h : .turn turn ∈ blocks) : turn.id ∈ turnIds blocks :=
  mem_map_of_mem (mem_filterMap.mpr ⟨.turn turn, h, rfl⟩)

theorem mem_of_mem_scanBack {skip : Nat} {turn : ExplicitTurn}
    (h : turn ∈ scanBack (blocks.map entry).reverse skip) : .turn turn ∈ blocks := by
  have hmem := (scanBack_sublist_turns blocks skip).subset h
  rw [mem_reverse] at hmem
  obtain ⟨block, hblock, heq⟩ := mem_filterMap.mp hmem
  cases block with
  | turn other =>
    obtain rfl : other = turn := Option.some.inj heq
    exact hblock
  | rolledBack numTurns => cases heq

theorem nodup_map_id_liveTurns (hunique : (turnIds blocks).Nodup) : ((liveTurns blocks).map (·.id)).Nodup := by
  have hsublist := (scanBack_sublist_turns blocks 0).map ExplicitTurn.id
  rw [map_reverse, ← liveTurns_eq_scanBack] at hsublist
  exact hsublist.nodup (nodup_reverse.mpr hunique)

/-- The same ids are shown and kept exactly if the same turns are live for both. -/
theorem mem_iff_scanBackCounted_eq (hunique : (turnIds blocks).Nodup) (parse : ParseHookPrompt) :
    (∀ id, id ∈ shownTurnIds parse blocks ↔ id ∈ keptTurnIds ops blocks) ↔
      scanBackCounted (hasInstruction ops) (blocks.map entry).reverse 0 = scanBack (blocks.map entry).reverse 0 := by
  rw [shownTurnIds_eq, keptTurnIds_eq, ← liveTurns_eq_scanBack]
  have hsublist := @scanBackCounted_sublist _ (hasInstruction ops)
    (blocks.map entry).reverse 0 0 (Nat.le_refl 0)
  rw [← liveTurns_eq_scanBack] at hsublist
  constructor
  · intro hsame
    have hsubset : (liveTurns blocks).map (·.id) ⊆ (scanBackCounted (hasInstruction ops)
        (blocks.map entry).reverse 0).map (·.id) :=
      fun id hid => (hsame id).mp (mem_reverse.mpr hid)
    -- the ids are unique, so as many turns are kept as are live
    have hlength := ((nodup_map_id_liveTurns hunique).subperm hsubset).length_le
    rw [length_map, length_map] at hlength
    exact hsublist.eq_of_length_le hlength
  · intro heq id
    rw [heq, mem_reverse]

section Split

variable {before after : List TurnBlock} {turn : ExplicitTurn}

theorem liveTurns_split (before after : List TurnBlock) (turn : ExplicitTurn) :
    liveTurns (before ++ .turn turn :: after) = scanBack (after.map entry).reverse 0 ++
        scanBack (.push turn :: (before.map entry).reverse) (pending (after.map entry).reverse 0) := by
  rw [liveTurns_eq_scanBack, map_append, map_cons, reverse_append, reverse_cons, append_assoc, scanBack_append]
  rfl

section

variable (hunique : (turnIds (before ++ .turn turn :: after)).Nodup)

include hunique

theorem nodup_split :
    turn.id ∉ turnIds before ∧ turn.id ∉ turnIds after ∧ ∀ id ∈ turnIds before, id ∉ turnIds after := by
  have hids : turnIds (before ++ .turn turn :: after) = turnIds before ++ turn.id :: turnIds after := by
    simp [turnIds, turn?]
  rw [hids, nodup_append] at hunique
  obtain ⟨-, hafter, hdisjoint⟩ := hunique
  refine ⟨?_, (nodup_cons.mp hafter).1, ?_⟩
  · intro hmem
    exact hdisjoint turn.id hmem turn.id mem_cons_self rfl
  · intro id hbefore hmem
    exact hdisjoint id hbefore id (mem_cons_of_mem _ hmem) rfl

/-- A turn is taken back if there are turns to skip behind it. -/
theorem notMem_liveTurns_iff : turn ∉ liveTurns (before ++ .turn turn :: after) ↔
      ∃ n, pending (after.map entry).reverse 0 = n + 1 := by
  obtain ⟨hbefore, hafter, -⟩ := nodup_split hunique
  rw [liveTurns_split]
  cases pending (after.map entry).reverse 0 with
  | zero =>
    have hmem : turn ∈ scanBack (.push turn :: (before.map entry).reverse) 0 :=
      mem_cons_self
    exact iff_of_false (fun hnot => hnot (mem_append_right _ hmem)) (by simp)
  | succ n =>
    refine iff_of_true (fun hmem => ?_) ⟨n, rfl⟩
    rcases mem_append.mp hmem with hmem | hmem
    · exact hafter (id_mem_turnIds (mem_of_mem_scanBack hmem))
    · exact hbefore (id_mem_turnIds (mem_of_mem_scanBack hmem))

/-- Nothing before a turn that is taken back is live exactly if the scan from there keeps nothing. -/
theorem forall_notMem_liveTurns_iff {n : Nat} (hpending : pending (after.map entry).reverse 0 = n + 1) :
    (∀ older, .turn older ∈ before → older ∉ liveTurns (before ++ .turn turn :: after)) ↔
      scanBack (before.map entry).reverse n = [] := by
  obtain ⟨-, -, hdisjoint⟩ := nodup_split hunique
  rw [liveTurns_split, hpending]
  change (∀ older, _ → older ∉ _ ++ scanBack (before.map entry).reverse n) ↔ _
  constructor
  · intro hnone
    rw [eq_nil_iff_forall_not_mem]
    intro older hmem
    exact hnone older (mem_of_mem_scanBack hmem) (mem_append_right _ hmem)
  · intro hnil older hbefore hmem
    rw [hnil, append_nil] at hmem
    exact hdisjoint older.id (id_mem_turnIds hbefore) (id_mem_turnIds (mem_of_mem_scanBack hmem))

end

end Split

theorem agrees_iff_takesBackInstructions (hunique : (turnIds blocks).Nodup) :
    RollbackLog.Agrees (hasInstruction ops) (blocks.map entry).reverse 0 ↔ TakesBackInstructions ops blocks := by
  rw [agrees_iff]
  constructor
  · intro h before turn after hsplit hcounts hnot
    subst hsplit
    obtain ⟨n, hn⟩ := (notMem_liveTurns_iff hunique).mp hnot
    have hlog : ((before ++ .turn turn :: after).map entry).reverse =
        (after.map entry).reverse ++ .push turn :: (before.map entry).reverse := by
      simp [entry]
    exact (forall_notMem_liveTurns_iff hunique hn).mpr (h _ turn _ hlog hcounts n hn)
  · intro h newer turn older hlog hcounts n hn
    -- the place in the log is a place in the rollout
    have hmap : blocks.map entry = older.reverse ++ .push turn :: newer.reverse := by
      rw [← reverse_reverse (blocks.map entry), hlog]
      simp
    obtain ⟨before, rest, rfl, hbefore, hrest⟩ := map_eq_append_iff.mp hmap
    obtain ⟨block, after, rfl, hblock, hafter⟩ := map_eq_cons_iff.mp hrest
    have hturn : block = .turn turn := by
      cases block with
      | turn other => rw [RollbackLog.Entry.push.inj hblock]
      | rolledBack numTurns => cases hblock
    subst hturn
    have holder : older = (before.map entry).reverse := by rw [hbefore, reverse_reverse]
    have hnewer : newer = (after.map entry).reverse := by rw [hafter, reverse_reverse]
    rw [hnewer] at hn
    rw [holder]
    have hnot := (notMem_liveTurns_iff hunique).mpr ⟨n, hn⟩
    exact (forall_notMem_liveTurns_iff hunique hn).mp (h before turn after rfl hcounts hnot)

/-- The turns that are shown are those that the scan keeps exactly if a turn without an instruction is only taken
back together with every turn before it. -/
theorem shownTurnIds_iff_keptTurnIds (parse : ParseHookPrompt) (ops : RolloutOps) (blocks : List TurnBlock)
    (hunique : (turnIds blocks).Nodup) :
    (∀ id, id ∈ shownTurnIds parse blocks ↔ id ∈ keptTurnIds ops blocks) ↔ TakesBackInstructions ops blocks := by
  rw [mem_iff_scanBackCounted_eq hunique, scanBackCounted_eq_iff, agrees_iff_takesBackInstructions hunique]

def askingTurn (id : Str) : ExplicitTurn where
  id := id
  body := [.item (.eventMsg .userMessage)]
  isInside := fun item hitem => by rw [List.mem_singleton.mp hitem]; rfl
  reviews := fun event hevent => by cases List.mem_singleton.mp hevent

def manualCompactionTurn (id : Str) : ExplicitTurn where
  id := id
  body := [.item (.compacted { replacementHistory := some [], windowNumber := some 1 })]
  isInside := fun item hitem => by rw [List.mem_singleton.mp hitem]; rfl
  reviews := fun event hevent => by cases List.mem_singleton.mp hevent

theorem shownTurnIds_iff_keptTurnIds_asking :
    TakesBackInstructions plainOps [.turn (askingTurn ['a']), .turn (askingTurn ['b']), .rolledBack 1] := by
  refine (shownTurnIds_iff_keptTurnIds (fun _ _ => none) plainOps _ (by decide +kernel)).mp ?_
  exact fun _ => Iff.rfl

/-- After a turn of the user and a compaction by hand, a rollback of one turn takes the compaction from what is shown,
and both turns from the context of the model. -/
theorem shownTurnIds_ne_keptTurnIds :
    shownTurnIds (fun _ _ => none) [.turn (askingTurn ['a']), .turn (manualCompactionTurn ['b']), .rolledBack 1] =
        [['a']] ∧
      keptTurnIds plainOps [.turn (askingTurn ['a']), .turn (manualCompactionTurn ['b']), .rolledBack 1] = [] := by
  decide +kernel

end Dcode.ThreadHistory
