import Dcode.Session.RolloutReconstruction
import Dcode.Lib.RollbackLog

/-!
# Rollouts made of whole turns

What a rollout means when it is read forwards: turns that begin and end, rollbacks between them, and the history that
a resumed session should have. A turn is live when no later rollback has taken it back; the history starts
at the newest compaction of a live turn, or is empty when there is none.
-/

namespace Dcode.Session

open Protocol Context

variable {ops : RolloutOps}

/-- An item that may occur inside a turn: none that begins or ends one, and no rollback. -/
def isTurnItem : RolloutItem → Bool
  | .eventMsg (.turnStarted _) => false
  | .eventMsg (.turnComplete _) => false
  | .eventMsg (.threadRolledBack _) => false
  | _ => true

/-- An item that makes its turn a turn of the user. -/
def isUserInstruction (ops : RolloutOps) : RolloutItem → Bool
  | .eventMsg .userMessage => true
  | .responseItem item => isUserTurnBoundary ops.toContextOps item
  | .interAgentCommunication _ => true
  | _ => false

/-- An item that belongs to no turn: the metadata of the session, or an event that the replay passes over. -/
def isOutsideTurn : RolloutItem → Bool
  | .sessionMeta _ => true
  | .interAgentCommunicationMetadata _ => true
  | .eventMsg .other => true
  | _ => false

/-- A whole turn, begun and completed under its id, with an instruction of the user. A compaction in it carries
its replacement history. -/
structure Turn (ops : RolloutOps) where
  id : Str
  body : List RolloutItem
  isTurnItem : ∀ item ∈ body, isTurnItem item
  hasInstruction : body.any (isUserInstruction ops)
  hasReplacement : ∀ compacted, .compacted compacted ∈ body → compacted.replacementHistory.isSome

/-- A part of a rollout. -/
inductive Block (ops : RolloutOps) where
  | turn (turn : Turn ops)
  | rolledBack (numTurns : Nat)
  | outside (item : RolloutItem) (h : isOutsideTurn item)

/-- The items of a part. -/
def Block.items : Block ops → List RolloutItem
  | .turn t => .eventMsg (.turnStarted t.id) :: (t.body ++ [.eventMsg (.turnComplete t.id)])
  | .rolledBack numTurns => [.eventMsg (.threadRolledBack numTurns)]
  | .outside item _ => [item]

variable (blocks : List (Block ops))

/-- The rollout made of the parts. -/
def rollout : List RolloutItem := blocks.flatMap Block.items

/-! ## Checkpoints -/

def checkpointAt (rest : List RolloutItem) : RolloutItem → Option (List ResponseItem × List RolloutItem)
  | .compacted compacted => compacted.replacementHistory.map fun history => (history, rest)
  | _ => none

/-- The newest replacement history among the items, and the items behind it. -/
def newestCheckpoint : List RolloutItem → Option (List ResponseItem × List RolloutItem)
  | [] => none
  | item :: rest => (newestCheckpoint rest).or (checkpointAt rest item)

/-- The newest checkpoint of a turn, with everything behind it when `newer` is what follows the turn. -/
def Turn.checkpoint (turn : Turn ops) (newer : List RolloutItem) : Option (List ResponseItem × List RolloutItem) :=
  (newestCheckpoint turn.body).map fun (history, rest) =>
    (history, rest ++ .eventMsg (.turnComplete turn.id) :: newer)

/-- The turns and rollbacks as a log: each turn is added with what follows it. -/
def turnLog : List (Block ops) → List (RollbackLog.Entry (Turn ops × List RolloutItem))
  | [] => []
  | .turn turn :: newer => .push (turn, rollout newer) :: turnLog newer
  | .rolledBack numTurns :: newer => .pop numTurns :: turnLog newer
  | .outside _ _ :: newer => turnLog newer

def liveTurns : List (Turn ops × List RolloutItem) :=
  RollbackLog.run (turnLog blocks) []

/-- The newest checkpoint of a live turn. -/
def liveCheckpoint : Option (List ResponseItem × List RolloutItem) :=
  (liveTurns blocks).findSome? fun (turn, newer) => turn.checkpoint newer

def replay (ops : RolloutOps) (history : List ResponseItem) (items : List RolloutItem) : List ResponseItem :=
  (items.foldl (replayItem ops) ({ items := history }, false)).1.items

/-- The history that a resumed session should have. -/
def expectedHistory : List ResponseItem :=
  match liveCheckpoint blocks with
  | some (history, newer) => replay ops history newer
  | none => replay ops [] (rollout blocks)

/-! ## Where the history is kept -/

/-- A turn with a compaction. -/
def Block.compacts : Block ops → Bool
  | .turn t => t.body.any isCompacted
  | _ => false

/-- A compaction is live, or compactions occur in no turn or in more than one. -/
def CheckpointKept : Prop :=
  (liveCheckpoint blocks).isSome ∨ blocks.countP Block.compacts ≠ 1

instance (blocks : List (Block ops)) : Decidable (CheckpointKept blocks) :=
  inferInstanceAs (Decidable (_ ∨ _))

/-! ## Other replacement histories -/

variable (f : CompactedItem → List ResponseItem)

/-- An item with another replacement history, if it is a compaction. -/
def RolloutItem.withReplacement : RolloutItem → RolloutItem
  | .compacted c => .compacted { c with replacementHistory := some (f c) }
  | item => item

theorem isTurnItem_withReplacement (item : RolloutItem) : isTurnItem (item.withReplacement f) = isTurnItem item := by
  cases item <;> rfl

theorem isUserInstruction_withReplacement (item : RolloutItem) :
    isUserInstruction ops (item.withReplacement f) = isUserInstruction ops item := by
  cases item <;> rfl

/-- The turn with other replacement histories. -/
def Turn.withReplacement (f : CompactedItem → List ResponseItem) (turn : Turn ops) : Turn ops where
  id := turn.id
  body := turn.body.map (RolloutItem.withReplacement f)
  isTurnItem := by
    intro item hitem
    obtain ⟨original, horiginal, rfl⟩ := List.mem_map.mp hitem
    rw [isTurnItem_withReplacement]
    exact turn.isTurnItem original horiginal
  hasInstruction := by
    rw [List.any_map, ← turn.hasInstruction]
    exact List.any_congr rfl fun item => isUserInstruction_withReplacement f item
  hasReplacement := by
    intro compacted hcompacted
    obtain ⟨original, -, heq⟩ := List.mem_map.mp hcompacted
    cases original with
    | compacted c =>
      obtain rfl := RolloutItem.compacted.inj heq
      rfl
    | _ => cases heq

/-- The part with other replacement histories. -/
def Block.withReplacement (f : CompactedItem → List ResponseItem) : Block ops → Block ops
  | .turn t => .turn (t.withReplacement f)
  | block => block

end Dcode.Session
