import Dcode.ThreadHistory.Builder

/-!
# What the builder shows

Inside an explicit turn the builder keeps that turn as the current one and adds no other (`Inside`); between turns
it has the turns that are live (`Between`).
-/

namespace Dcode.ThreadHistory

open Protocol Session List RollbackLog

/-! ## Inside a turn -/

structure Inside (ids : List Str) (id : Str) (builder : ThreadHistoryBuilder) : Prop where
  turns : builder.turns.map (·.id) = ids
  current : ∃ turn, builder.currentTurn = some turn ∧ turn.id = id ∧ turn.openedExplicitly

namespace Inside

variable {ids : List Str} {id : Str} {builder : ThreadHistoryBuilder}

section

variable (h : Inside ids id builder)

include h

theorem withTurn {f : PendingTurn → PendingTurn}
    (hf : ∀ turn, (f turn).id = turn.id ∧ (f turn).openedExplicitly = turn.openedExplicitly) :
    Inside ids id (builder.withTurn f) := by
  obtain ⟨turn, hcurrent, hid, hopened⟩ := h.current
  obtain ⟨hfid, hfopened⟩ := hf turn
  refine ⟨h.turns, f turn, ?_, hfid.trans hid, hfopened.trans hopened⟩
  rw [ThreadHistoryBuilder.withTurn, hcurrent, Option.getD_some]

theorem nextItemId : Inside ids id builder.nextItemId.2 := ⟨h.turns, h.current⟩

theorem pushItemInCurrentTurn (item : ThreadItem) : Inside ids id (builder.pushItemInCurrentTurn item) :=
  h.withTurn fun _ => ⟨rfl, rfl⟩

theorem pushNewItem (item : Str → ThreadItem) : Inside ids id (builder.pushNewItem item) :=
  h.nextItemId.pushItemInCurrentTurn _

theorem upsertItemInCurrentTurn (item : ThreadItem) : Inside ids id (builder.upsertItemInCurrentTurn item) :=
  h.withTurn fun _ => ⟨rfl, rfl⟩

end

theorem map_id_updateTurn (turnId : Str) {f : ShownTurn → ShownTurn} (hf : ∀ turn, (f turn).id = turn.id)
    (turns : List ShownTurn) : (updateTurn turnId f turns).map (·.id) = turns.map (·.id) := by
  induction turns with
  | nil => rfl
  | cons turn turns ih =>
    rw [updateTurn]
    split
    · rw [map_cons, map_cons, hf]
    · rw [map_cons, map_cons, ih]

section

variable (h : Inside ids id builder)

include h

theorem upsertItemInTurnId (turnId : Str) (item : ThreadItem) :
    Inside ids id (builder.upsertItemInTurnId turnId item) := by
  obtain ⟨turn, hcurrent, hid, hopened⟩ := h.current
  rw [ThreadHistoryBuilder.upsertItemInTurnId]
  simp only [hcurrent]
  split
  · exact ⟨h.turns, _, rfl, hid, hopened⟩
  · refine ⟨?_, turn, rfl, hid, hopened⟩
    refine (map_id_updateTurn turnId ?_ builder.turns).trans h.turns
    exact fun _ => rfl

/-- The turn is known, so no implicit one is opened for the review. -/
theorem upsertReviewModeItem {turnId : Option Str} (hid : turnId = none ∨ turnId = some id) (item : ThreadItem) :
    Inside ids id (builder.upsertReviewModeItem turnId item) := by
  rcases hid with rfl | rfl
  · exact h.upsertItemInCurrentTurn item
  · obtain ⟨turn, hcurrent, hturn, -⟩ := h.current
    have hknown : (builder.currentTurn.any (·.id == id) || builder.turns.any (·.id == id)) := by
      rw [hcurrent, Option.any_some, hturn, beq_self_eq_true, Bool.true_or]
    rw [ThreadHistoryBuilder.upsertReviewModeItem]
    simp only [hknown]
    exact h.upsertItemInTurnId id item

theorem handleReviewMode {turnId : Option Str} (hid : turnId = none ∨ turnId = some id) (itemId : Option Str) :
    Inside ids id (builder.handleReviewMode turnId itemId) := by
  cases itemId with
  | some itemId => exact h.upsertReviewModeItem hid _
  | none => exact h.nextItemId.upsertReviewModeItem hid _

theorem handleReasoning (text : Str) (extend : List Str × List Str → List Str × List Str) :
    Inside ids id (builder.handleReasoning text extend) := by
  rw [ThreadHistoryBuilder.handleReasoning]
  split
  · exact h
  · have hensured : Inside ids id (builder.withTurn fun turn => turn) := h.withTurn fun _ => ⟨rfl, rfl⟩
    dsimp only
    split
    · exact hensured.withTurn fun _ => ⟨rfl, rfl⟩
    · exact hensured.pushNewItem _

/-- A message of the user closes only a turn that was not opened explicitly. -/
theorem handleUserMessage : Inside ids id builder.handleUserMessage := by
  obtain ⟨turn, hcurrent, -, hopened⟩ := h.current
  have hopen : (builder.currentTurn.any fun turn =>
      !turn.openedExplicitly && !(turn.sawCompaction && turn.items.isEmpty)) = false := by
    rw [hcurrent, Option.any_some, hopened, Bool.not_true, Bool.false_and]
  rw [ThreadHistoryBuilder.handleUserMessage]
  simp only [hopen]
  exact h.pushNewItem _

theorem handleMaterializedItemLifecycle {turnId : Str} {item : TurnItem}
    (hreview : ∀ reviewId, item = .reviewMode reviewId → turnId = id) :
    Inside ids id (builder.handleMaterializedItemLifecycle turnId item) := by
  cases item with
  | plan planId text =>
    rw [ThreadHistoryBuilder.handleMaterializedItemLifecycle]
    split
    · exact h
    · exact h.upsertItemInTurnId turnId _
  | shown itemId => exact h.upsertItemInTurnId turnId _
  | reviewMode reviewId => exact h.upsertReviewModeItem (.inr (congrArg some (hreview reviewId rfl))) _
  | userMessage | hidden => exact h

theorem handleHistoryEvent {event : HistoryEvent} (hreviews : ReviewsTurn id event) :
    Inside ids id (builder.handleHistoryEvent event) := by
  cases event with
  | itemStarted turnId item | itemCompleted turnId item =>
    refine h.handleMaterializedItemLifecycle ?_
    rintro reviewId rfl
    exact hreviews
  | agentMessage message =>
    rw [ThreadHistoryBuilder.handleHistoryEvent]
    split
    · exact h
    · exact h.pushNewItem _
  | agentReasoning text => exact h.handleReasoning text fun texts => (texts.1 ++ [text], texts.2)
  | agentReasoningRawContent text => exact h.handleReasoning text fun texts => (texts.1, texts.2 ++ [text])
  | contextCompacted => exact h.pushNewItem _
  | enteredReviewMode turnId itemId | exitedReviewMode turnId itemId => exact h.handleReviewMode hreviews itemId
  | toolCall turnId callId =>
    cases turnId with
    | some turnId => exact h.upsertItemInTurnId turnId _
    | none => exact h.upsertItemInCurrentTurn _

variable (parse : ParseHookPrompt)

theorem handleResponseItem (item : ResponseItem) : Inside ids id (builder.handleResponseItem parse item) := by
  cases item with
  | message itemId role content phase metadata =>
    rw [ThreadHistoryBuilder.handleResponseItem]
    split
    · split
      · exact h.pushItemInCurrentTurn _
      · exact h
    · exact h
  | _ => exact h

theorem dispatch {item : PersistedItem} (hinside : isInsideTurn item)
    (hreviews : ∀ event, item = .event event → ReviewsTurn id event) :
    Inside ids id (builder.dispatch parse item) := by
  cases item with
  | event event => exact h.handleHistoryEvent (hreviews event rfl)
  | item item =>
    cases item with
    | eventMsg event =>
      cases event with
      | userMessage => exact h.handleUserMessage
      | turnAborted turnId | other => exact h
      | _ => simp [isInsideTurn] at hinside
    | compacted compacted =>
      rw [ThreadHistoryBuilder.dispatch]
      exact h.withTurn fun _ => ⟨rfl, rfl⟩
    | responseItem item => exact h.handleResponseItem parse item
    | _ => exact h

theorem handleRolloutItem {item : PersistedItem} (hinside : isInsideTurn item)
    (hreviews : ∀ event, item = .event event → ReviewsTurn id event) :
    Inside ids id (builder.handleRolloutItem parse item) := by
  -- only the index of the item changes before it is handled
  have hindexed : Inside ids id { builder with
      currentRolloutIndex := builder.nextRolloutIndex, nextRolloutIndex := builder.nextRolloutIndex + 1 } :=
    ⟨h.turns, h.current⟩
  exact hindexed.dispatch parse hinside hreviews

theorem foldl {body : List PersistedItem} (hinside : ∀ item ∈ body, isInsideTurn item)
    (hreviews : ∀ event, .event event ∈ body → ReviewsTurn id event) :
    Inside ids id (body.foldl (ThreadHistoryBuilder.handleRolloutItem parse) builder) := by
  refine foldlRecOn body _ h fun _ h item hitem => ?_
  exact h.handleRolloutItem parse (hinside item hitem) fun event heq => hreviews event (heq ▸ hitem)

end

end Inside

/-! ## Between turns -/

structure Between (ids : List Str) (builder : ThreadHistoryBuilder) : Prop where
  turns : builder.turns.map (·.id) = ids
  current : builder.currentTurn = none

namespace Between

variable {ids : List Str} {builder : ThreadHistoryBuilder}

theorem finishCurrentTurn (h : Between ids builder) : builder.finishCurrentTurn = builder := by
  rw [ThreadHistoryBuilder.finishCurrentTurn, h.current]

theorem handleTurnStarted (h : Between ids builder) (id : Str) : Inside ids id (builder.handleTurnStarted id) := by
  rw [ThreadHistoryBuilder.handleTurnStarted, h.finishCurrentTurn]
  exact ⟨h.turns, _, rfl, rfl, rfl⟩

/-- An explicit turn is shown even if it has no items. -/
theorem of_handleTurnComplete {id : Str} (h : Inside ids id builder) :
    Between (ids ++ [id]) (builder.handleTurnComplete id) := by
  obtain ⟨turn, hcurrent, hid, hopened⟩ := h.current
  have hcomplete : builder.handleTurnComplete id = builder.finishCurrentTurn := by
    rw [ThreadHistoryBuilder.handleTurnComplete, hcurrent, Option.any_some, hid, beq_self_eq_true, if_pos rfl]
  rw [hcomplete, ThreadHistoryBuilder.finishCurrentTurn]
  simp only [hcurrent, hopened, Bool.not_true, Bool.and_false, Bool.false_and, Bool.false_eq_true, if_false]
  refine ⟨?_, rfl⟩
  rw [map_append, h.turns, map_singleton, hid]

theorem handleThreadRollback (h : Between ids builder) (numTurns : Nat) :
    Between (ids.take (ids.length - numTurns)) (builder.handleThreadRollback numTurns) := by
  have hlength : builder.turns.length = ids.length := by rw [← h.turns, length_map]
  rw [ThreadHistoryBuilder.handleThreadRollback, h.finishCurrentTurn]
  refine ⟨?_, h.current⟩
  split
  · have hzero : ids.length - numTurns = 0 := by omega
    rw [hzero, take_zero, map_nil]
  · rw [map_take, h.turns, hlength]

theorem step {stack : List ExplicitTurn} (h : Between (stack.map (·.id)).reverse builder) (parse : ParseHookPrompt)
    (block : TurnBlock) :
    Between ((run [block.entry] stack).map (·.id)).reverse
      (block.items.foldl (ThreadHistoryBuilder.handleRolloutItem parse) builder) := by
  cases block with
  | turn turn =>
    have hindexed : Between (stack.map (·.id)).reverse { builder with
        currentRolloutIndex := builder.nextRolloutIndex, nextRolloutIndex := builder.nextRolloutIndex + 1 } :=
      ⟨h.turns, h.current⟩
    have hbody := (hindexed.handleTurnStarted turn.id).foldl parse turn.isInside turn.reviews
    rw [TurnBlock.items, foldl_cons, foldl_append]
    change Between ((turn :: stack).map (·.id)).reverse _
    rw [map_cons, reverse_cons]
    exact of_handleTurnComplete ⟨hbody.turns, hbody.current⟩
  | rolledBack numTurns =>
    have hindexed : Between (stack.map (·.id)).reverse { builder with
        currentRolloutIndex := builder.nextRolloutIndex, nextRolloutIndex := builder.nextRolloutIndex + 1 } :=
      ⟨h.turns, h.current⟩
    have hrolled := hindexed.handleThreadRollback numTurns
    rw [length_reverse, ← reverse_drop, ← map_drop] at hrolled
    exact hrolled

theorem foldl {stack : List ExplicitTurn} (h : Between (stack.map (·.id)).reverse builder) (parse : ParseHookPrompt)
    (blocks : List TurnBlock) :
    Between ((run (blocks.map TurnBlock.entry) stack).map (·.id)).reverse
      ((turnRollout blocks).foldl (ThreadHistoryBuilder.handleRolloutItem parse) builder) := by
  induction blocks generalizing stack builder with
  | nil => exact h
  | cons block blocks ih =>
    have hrun : run ((block :: blocks).map TurnBlock.entry) stack =
        run (blocks.map TurnBlock.entry) (run [block.entry] stack) :=
      run_append [block.entry] (blocks.map TurnBlock.entry) stack
    rw [hrun, turnRollout, flatMap_cons, foldl_append]
    exact ih (h.step parse block)

end Between

/-- The builder shows the turns that are live. -/
theorem shownTurnIds_eq (parse : ParseHookPrompt) (blocks : List TurnBlock) :
    shownTurnIds parse blocks = ((liveTurns blocks).map (·.id)).reverse := by
  have hstart : Between (([] : List ExplicitTurn).map (·.id)).reverse {} := ⟨rfl, rfl⟩
  have hend := hstart.foldl parse blocks
  rw [shownTurnIds, buildTurnsFromRolloutItems, hend.finishCurrentTurn]
  exact hend.turns

end Dcode.ThreadHistory
