import Dcode.Rollout.Recorder

/-!
# Reading a rollout for the thread history

`read_projection_steps` of `codex-rs/thread-store/src/local/thread_history_materialization.rs`: the lines of a paginated
rollout in the order of their ordinals. A line that is not a rollout line waits until a later ordinal shows whether
it took one. Of the changes that a line brings it is read only whether they need the time of the line.
-/

namespace Dcode.ThreadStore

open Rollout

variable {Timestamp Meta Git Item Value : Type}

/-- What a line is projected to: `project_rollout_line`, of which it is asked whether an item that it changes has no start,
and `DateTime::parse_from_rfc3339`. -/
structure LineProjection (Timestamp Meta Git Item : Type) where
  lacksStart : RolloutLine Timestamp Meta Git Item → Bool
  timestampMillis : Timestamp → Option Int

inductive RolloutProjectionStep where
  | skippedOrdinalRange (startOrdinal endOrdinalExclusive : Nat)
  | line (ordinal startByteOffset endByteOffset : Nat) (fallbackCreatedAtMs : Option Int)
deriving DecidableEq

/-- `ThreadStoreError::Internal`, by its message. -/
inductive ProjectionError where
  /-- "durable rollout shrank before projection" -/
  | shrank
  /-- "paginated rollout line for … is missing an ordinal" -/
  | missingOrdinal
  /-- "thread history projection for … expected ordinal …, got …" -/
  | ordinalTaken (expected got : Nat)
  /-- "… expected ordinal …, got …; … rejected rollout lines cannot cover that gap" -/
  | ordinalGap (expected got rejected : Nat)
  /-- "rollout ordinal exceeds SQLite integer range" -/
  | ordinalOverflow
deriving DecidableEq

/-- The variables of the loop. -/
structure ProjectionState where
  projections : List RolloutProjectionStep := []
  nextOrdinal : Nat
  nextOffset : Nat
  pendingRejectedLineCount : Nat := 0
  lineStartOffset : Nat
deriving DecidableEq

/-- A line that is left for a later ordinal. -/
def ProjectionState.reject (self : ProjectionState) (lineEndOffset : Nat) : ProjectionState :=
  { self with
    pendingRejectedLineCount := self.pendingRejectedLineCount + 1
    lineStartOffset := lineEndOffset }

section

variable (json : LineJson Timestamp Meta Git Item Value) (projection : LineProjection Timestamp Meta Git Item)
  (subagentHistoryStartOrdinal : Option Nat)

/-- The time that the items of a line fall back to: none is needed, or the timestamp, which may be invalid. -/
def fallbackCreatedAtMs (line : RolloutLine Timestamp Meta Git Item) (ordinal : Nat) : Option (Option Int) :=
  -- what is before the start of a subagent brings no changes
  if !subagentHistoryStartOrdinal.any (ordinal < ·) && projection.lacksStart line then
    (projection.timestampMillis line.timestamp).map some
  else some none

/-- A rollout line with its ordinal. -/
def projectLine (self : ProjectionState) (line : RolloutLine Timestamp Meta Git Item) (ordinal lineEndOffset : Nat) :
    Except ProjectionError ProjectionState :=
  if self.pendingRejectedLineCount < ordinal - self.nextOrdinal then
    .error (.ordinalGap self.nextOrdinal ordinal self.pendingRejectedLineCount)
  else
    match fallbackCreatedAtMs projection subagentHistoryStartOrdinal line ordinal with
    | none => .ok (self.reject lineEndOffset)
    | some fallback =>
      match checkedSucc ordinal with
      | none => .error .ordinalOverflow
      | some nextOrdinal =>
        let skipped :=
          if 0 < ordinal - self.nextOrdinal then
            [RolloutProjectionStep.skippedOrdinalRange self.nextOrdinal ordinal]
          else []
        .ok
          { projections := self.projections ++ skipped ++ [.line ordinal self.lineStartOffset lineEndOffset fallback]
            nextOrdinal := nextOrdinal
            nextOffset := lineEndOffset
            lineStartOffset := lineEndOffset }

/-- One line of the loop. -/
def readProjectionLine (self : ProjectionState) (lineBytes : Bytes) : Except ProjectionError ProjectionState :=
  let lineEndOffset := self.lineStartOffset + lineBytes.length
  if lineBytes.all isAsciiWhitespace then
    .ok
      { self with
        nextOffset := if self.pendingRejectedLineCount = 0 then lineEndOffset else self.nextOffset
        lineStartOffset := lineEndOffset }
  else
    match json.fromSlice lineBytes with
    | none => .ok (self.reject lineEndOffset)
    | some value =>
      let line := json.fromValue value
      match (line.bind (·.ordinal)).or (json.ordinal value) with
      | none => if line.isNone then .ok (self.reject lineEndOffset) else .error .missingOrdinal
      | some ordinal =>
        if ordinal < self.nextOrdinal then .error (.ordinalTaken self.nextOrdinal ordinal)
        else
          match line with
          | none => .ok (self.reject lineEndOffset)
          | some line => projectLine projection subagentHistoryStartOrdinal self line ordinal lineEndOffset

def readProjectionSteps (rollout : Bytes) (startOffset expectedOrdinal : Nat) :
    Except ProjectionError (List RolloutProjectionStep × Nat) := do
  if rollout.length < startOffset then throw .shrank
  let lines := LineLog.completeLines newline (rollout.drop startOffset)
  let last ← lines.foldlM (readProjectionLine json projection subagentHistoryStartOrdinal)
    { nextOrdinal := expectedOrdinal, nextOffset := startOffset, lineStartOffset := startOffset }
  return (last.projections, last.nextOffset)

end

end Dcode.ThreadStore
