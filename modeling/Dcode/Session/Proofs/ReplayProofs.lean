import Dcode.Context.Proofs.DropTurnsProofs
import Dcode.Session.TurnLog

/-!
# Replaying items forwards

The replay depends on the history it starts from and on nothing else of the context manager, a compaction makes it
forget that history, and items at the front that are no turns of the user stay in front
(`replay_append_left`).
-/

namespace Dcode.Session

open Protocol Context List ContextManager

variable {ops : RolloutOps}

/-! ## Rolling back -/

variable (contextOps : ContextOps)

theorem trimPreTurnContextUpdates_snd (cm cm' : ContextManager) (snapshot : List ResponseItem) (first cut : Nat) :
    (cm.trimPreTurnContextUpdates contextOps snapshot first cut).2 =
      (cm'.trimPreTurnContextUpdates contextOps snapshot first cut).2 := by
  obtain ⟨cut', clears, h⟩ := @exists_trims contextOps snapshot first cut
  exact (congrArg Prod.snd (h.eq cm)).trans (congrArg Prod.snd (h.eq cm')).symm

def droppedItems (contextOps : ContextOps) (items : List ResponseItem) (numTurns : Nat) : List ResponseItem :=
  (({ items := items } : ContextManager).dropLastNUserTurns contextOps numTurns).items

theorem dropLastNUserTurns_items (cm : ContextManager) (numTurns : Nat) :
    (cm.dropLastNUserTurns contextOps numTurns).items = droppedItems contextOps cm.items numTurns := by
  by_cases hzero : numTurns = 0
  · simp [droppedItems, dropLastNUserTurns, if_pos hzero]
  · rw [droppedItems, dropLastNUserTurns_eq _ _ hzero, dropLastNUserTurns_eq _ _ hzero]
    exact congrArg cm.items.take (trimPreTurnContextUpdates_snd ..)

theorem trimPreTurnContextUpdates_append (cm : ContextManager) (older snapshot : List ResponseItem) (first cut : Nat) :
    (cm.trimPreTurnContextUpdates contextOps (older ++ snapshot) (older.length + first) (older.length + cut)).2 =
      older.length + (cm.trimPreTurnContextUpdates contextOps snapshot first cut).2 := by
  induction cut generalizing cm with
  | zero =>
    cases hlen : older.length with
    | zero => rfl
    | succ n =>
      have hstop : ¬ n + 1 + first < n + 1 := by omega
      have hright : (cm.trimPreTurnContextUpdates contextOps snapshot first 0).2 = 0 := rfl
      rw [hright, trimPreTurnContextUpdates, if_neg hstop]
  | succ cut ih =>
    have hget : (older ++ snapshot)[older.length + cut]? = snapshot[cut]? := by
      rw [getElem?_append_right (Nat.le_add_right _ _), Nat.add_sub_cancel_left]
    have hlt : (older.length + first < older.length + cut + 1) ↔ first < cut + 1 := by omega
    rw [← Nat.add_assoc]
    simp only [trimPreTurnContextUpdates, hget, hlt]
    split
    · split
      · split
        · exact ih _
        · split
          · exact ih _
          · simp only; omega
      · simp only; omega
    · simp only; omega

section

variable {older : List ResponseItem} (hold : ∀ item ∈ older, isUserTurnBoundary contextOps item = false)
  (items : List ResponseItem)

include hold

theorem turnCount_append : turnCount contextOps (older ++ items) = turnCount contextOps items := by
  rw [turnCount, countP_append, countP_eq_zero.mpr (by simpa using hold), Nat.zero_add, turnCount]

theorem turnStart_append (n : Nat) : turnStart contextOps (older ++ items) n = older.length + turnStart contextOps items n := by
  induction older with
  | nil => exact (Nat.zero_add _).symm
  | cons item older ih =>
    rw [forall_mem_cons] at hold
    rw [cons_append, turnStart, findIdxNth_cons_of_neg hold.1, ← turnStart, ih hold.2, length_cons]
    omega

/-- Items in front that are no turns of the user stay in front. -/
theorem droppedItems_append (numTurns : Nat) :
    droppedItems contextOps (older ++ items) numTurns = older ++ droppedItems contextOps items numTurns := by
  by_cases hzero : numTurns = 0
  · simp [droppedItems, dropLastNUserTurns, if_pos hzero]
  rw [droppedItems, dropLastNUserTurns_eq _ _ hzero, droppedItems, dropLastNUserTurns_eq _ _ hzero]
  -- the cut moves by the length of what stands in front
  simp only [ContextManager.replace, turnCount_append contextOps hold, turnStart_append contextOps hold]
  rw [trimPreTurnContextUpdates_append, take_append, take_of_length_le (by omega), Nat.add_sub_cancel_left]
  congr 2
  exact trimPreTurnContextUpdates_snd ..

end

/-! ## One item -/

theorem replayItem_items_congr {st st' : ContextManager × Bool} (h : st.1.items = st'.1.items)
    (item : RolloutItem) : (replayItem ops st item).1.items = (replayItem ops st' item).1.items := by
  cases item with
  | responseItem item | interAgentCommunication communication =>
    simp only [replayItem, recordItem]
    split
    · rw [h]
    · exact h
  | compacted compacted =>
    simp only [replayItem]
    split
    · rfl
    · simp [ContextManager.replace, h]
  | eventMsg event =>
    cases event with
    | threadRolledBack numTurns => simp [replayItem, dropLastNUserTurns_items, h]
    | _ => exact h
  | _ => exact h

theorem foldl_replayItem_items_congr {st st' : ContextManager × Bool} (h : st.1.items = st'.1.items)
    (items : List RolloutItem) :
    (items.foldl (replayItem ops) st).1.items = (items.foldl (replayItem ops) st').1.items := by
  induction items generalizing st st' with
  | nil => exact h
  | cons item items ih => exact ih (replayItem_items_congr h item)

theorem foldl_replayItem_items (st : ContextManager × Bool) (items : List RolloutItem) :
    (items.foldl (replayItem ops) st).1.items = replay ops st.1.items items := by
  apply foldl_replayItem_items_congr
  rfl

/-! ## Many items -/

theorem replay_append (history : List ResponseItem) (items more : List RolloutItem) :
    replay ops history (items ++ more) = replay ops (replay ops history items) more := by
  rw [replay, foldl_append, foldl_replayItem_items]
  rfl

theorem replay_cons (history : List ResponseItem) (item : RolloutItem) (items : List RolloutItem) :
    replay ops history (item :: items) = replay ops (replay ops history [item]) items :=
  replay_append history [item] items

/-- A compaction with its replacement makes the replay forget what was there. -/
theorem replay_compacted {compacted : CompactedItem} {replacement : List ResponseItem}
    (h : compacted.replacementHistory = some replacement) (history : List ResponseItem)
    (items : List RolloutItem) :
    replay ops history (.compacted compacted :: items) = replay ops replacement items := by
  rw [replay_cons]
  simp [replay, replayItem, h, ContextManager.replace]

/-- Behind a compaction with its replacement, what came before does not matter. -/
theorem replay_of_compacted {items : List RolloutItem} {compacted : CompactedItem}
    (hmem : .compacted compacted ∈ items) (h : compacted.replacementHistory.isSome)
    (history history' : List ResponseItem) : replay ops history items = replay ops history' items := by
  obtain ⟨older, newer, rfl⟩ := append_of_mem hmem
  obtain ⟨replacement, hreplacement⟩ := Option.isSome_iff_exists.mp h
  rw [replay_append, replay_append, replay_compacted hreplacement, replay_compacted hreplacement]

/-- Without compactions, items in front that are no turns of the user stay in front. -/
theorem replay_append_left {older : List ResponseItem}
    (hold : ∀ item ∈ older, isUserTurnBoundary ops.toContextOps item = false) {items : List RolloutItem}
    (hitems : ∀ item ∈ items, isCompacted item = false) (history : List ResponseItem) :
    replay ops (older ++ history) items = older ++ replay ops history items := by
  induction items generalizing history with
  | nil => rfl
  | cons item items ih =>
    rw [forall_mem_cons] at hitems
    rw [replay_cons, replay_cons history, ← ih hitems.2]
    congr 1
    cases item with
    | compacted compacted => simp [isCompacted] at hitems
    | responseItem item | interAgentCommunication communication =>
      simp only [replay, foldl_cons, foldl_nil, replayItem, recordItem]
      split
      · exact append_assoc _ _ _
      · rfl
    | eventMsg event =>
      cases event with
      | threadRolledBack numTurns =>
        exact droppedItems_append ops.toContextOps hold history numTurns
      | _ => rfl
    | _ => rfl

end Dcode.Session
