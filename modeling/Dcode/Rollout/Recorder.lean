import Dcode.Lib.LineLog
import Dcode.Lib.Str
import Dcode.Lib.Wp

/-!
# The writer of a rollout

`RolloutWriterState` of `codex-rs/rollout/src/recorder.rs` and `RolloutOrdinalState` of `ordinal.rs`: items are buffered and
written one line each; an operation on the file may fail, and then the file is opened again and what is still
buffered is written. The environment says of each operation whether it fails, and how much of its line a failed write
leaves. What is logged about errors is left out, and so are the paths and the compressed form of a rollout.
-/

namespace Dcode.Rollout

def newline : UInt8 := 10

/-! ## Lines -/

/-- `RolloutItem`, of which the writer makes one itself. -/
inductive StoredItem (Meta Git Item : Type) where
  | sessionMeta (sessionMeta : Meta) (git : Git)
  | item (item : Item)
deriving DecidableEq

structure RolloutLine (Timestamp Meta Git Item : Type) where
  timestamp : Timestamp
  ordinal : Option Nat
  item : StoredItem Meta Git Item
deriving DecidableEq

/-- `serde_json` for rollout lines: `to_string`, `from_slice` for a value, its field `ordinal`, and `from_value`. -/
structure LineJson (Timestamp Meta Git Item Value : Type) where
  toString : RolloutLine Timestamp Meta Git Item → Bytes
  fromSlice : Bytes → Option Value
  ordinal : Value → Option Nat
  fromValue : Value → Option (RolloutLine Timestamp Meta Git Item)

def isAsciiWhitespace (b : UInt8) : Bool := b == 32 || b == 9 || b == 10 || b == 12 || b == 13

/-- What is assumed of `serde_json`: a line is an object on one line, it is read back, and a proper part of it is
not a value. -/
structure LineJson.Lawful {Timestamp Meta Git Item Value : Type} (json : LineJson Timestamp Meta Git Item Value) : Prop where
  opens : ∀ line, ∃ b rest, json.toString line = b :: rest ∧ isAsciiWhitespace b = false
  oneLine : ∀ line, newline ∉ json.toString line
  parses : ∀ line, ∃ value, json.fromSlice (json.toString line ++ [newline]) = some value ∧
    json.fromValue value = some line
  torn : ∀ line kept, kept < (json.toString line).length →
    json.fromSlice ((json.toString line).take kept ++ [newline]) = none

/-! ## Ordinals -/

inductive RolloutOrdinalState where
  | legacy
  | paginated (next : Option Nat)
deriving DecidableEq

inductive IoError where
  | failed
  /-- "paginated rollout record ordinal overflow" -/
  | ordinalOverflow
  /-- "rollout writer is not open" -/
  | notOpen
deriving DecidableEq

/-- `u64::checked_add` of one. -/
def checkedSucc (ordinal : Nat) : Option Nat := if ordinal + 1 < 2 ^ 64 then some (ordinal + 1) else none

namespace RolloutOrdinalState

/-- `RolloutOrdinalState::for_new_rollout` in the paginated mode, with the end of the history it continues. -/
def forNewRollout (historyBase : Option UInt64) : RolloutOrdinalState :=
  .paginated (some (historyBase.elim 0 UInt64.toNat))

def current : RolloutOrdinalState → Except IoError (Option Nat)
  | .legacy => .ok none
  | .paginated (some ordinal) => .ok (some ordinal)
  | .paginated none => .error .ordinalOverflow

def advance : RolloutOrdinalState → RolloutOrdinalState
  | .paginated (some ordinal) => .paginated (checkedSucc ordinal)
  | state => state

end RolloutOrdinalState

/-! ## The file and the writer -/

/-- An operation on the file: when it takes place, what git says then, and after how many bytes it fails, if it does. -/
structure IoStep (Timestamp Git : Type) where
  timestamp : Timestamp
  git : Git
  failedAfter : Option Nat := none

/-- A line that was to be written, and after how many bytes that failed. -/
structure LineWrite (Timestamp Meta Git Item : Type) where
  line : RolloutLine Timestamp Meta Git Item
  failedAfter : Option Nat

/-- The file with its environment, the number of operations so far and the lines that were to be written. -/
structure Disk (Timestamp Meta Git Item : Type) where
  bytes : Bytes := []
  environment : Nat → IoStep Timestamp Git
  operations : Nat := 0
  writes : List (LineWrite Timestamp Meta Git Item) := []

/-- `RolloutWriterState`. Of the writer and the deferred file it is said whether there is one. -/
structure RolloutWriterState (Meta Item : Type) where
  writer : Bool := false
  deferredLogFileInfo : Bool := true
  pendingItems : List Item := []
  sessionMeta : Option Meta
  ordinalState : RolloutOrdinalState

def RolloutWriterState.isDeferred {Meta Item : Type} (self : RolloutWriterState Meta Item) : Bool :=
  !self.writer && self.deferredLogFileInfo

/-- The writer and its file. -/
structure Recorder (Timestamp Meta Git Item : Type) where
  state : RolloutWriterState Meta Item
  disk : Disk Timestamp Meta Git Item

abbrev RecorderM (Timestamp Meta Git Item : Type) : Type → Type :=
  EStateM IoError (Recorder Timestamp Meta Git Item)

variable {Timestamp Meta Git Item Value : Type}

/-- A new paginated rollout. -/
def Recorder.create (sessionMeta : Meta) (historyBase : Option UInt64) (environment : Nat → IoStep Timestamp Git) :
    Recorder Timestamp Meta Git Item where
  state := { sessionMeta := some sessionMeta, ordinalState := .forNewRollout historyBase }
  disk := { environment := environment }

/-! ## Operations on the file -/

/-- The next operation. -/
def nextOperation : RecorderM Timestamp Meta Git Item (IoStep Timestamp Git) := fun recorder =>
  .ok (recorder.disk.environment recorder.disk.operations)
    { recorder with disk := { recorder.disk with operations := recorder.disk.operations + 1 } }

def ensureRolloutIsNewlineTerminated (recorder : Recorder Timestamp Meta Git Item) : Recorder Timestamp Meta Git Item :=
  { recorder with disk := { recorder.disk with bytes := LineLog.ensureTerminated newline recorder.disk.bytes } }

/-- `open_log_file`, which may fail before or after the file is terminated. -/
def openLogFile : RecorderM Timestamp Meta Git Item Unit := do
  let step ← nextOperation
  match step.failedAfter with
  | none => modify ensureRolloutIsNewlineTerminated
  | some 0 => throw .failed
  | some _ => do
    modify ensureRolloutIsNewlineTerminated
    throw .failed

def appendLine (line : RolloutLine Timestamp Meta Git Item) (failedAfter : Option Nat) (bytes : Bytes)
    (recorder : Recorder Timestamp Meta Git Item) : Recorder Timestamp Meta Git Item :=
  { recorder with
    disk := { recorder.disk with
      bytes := recorder.disk.bytes ++ bytes
      writes := recorder.disk.writes ++ [⟨line, failedAfter⟩] } }

variable (json : LineJson Timestamp Meta Git Item Value)

/-- `JsonlWriter::write_rollout_item`, for an item that may depend on what git says. -/
def writeRolloutItem (item : Git → StoredItem Meta Git Item)
    (ordinal : Option Nat) : RecorderM Timestamp Meta Git Item Unit := do
  let step ← nextOperation
  let line := ⟨step.timestamp, ordinal, item step.git⟩
  let text := json.toString line ++ [newline]
  match step.failedAfter with
  | none => modify (appendLine line none text)
  | some kept => do
    modify (appendLine line (some kept) (text.take kept))
    throw .failed

def flushFile : RecorderM Timestamp Meta Git Item Unit := do
  let step ← nextOperation
  match step.failedAfter with
  | none => pure ()
  | some _ => throw .failed

/-! ## The writer -/

/-- A change of the state of the writer. -/
def modifyState (f : RolloutWriterState Meta Item → RolloutWriterState Meta Item) :
    RecorderM Timestamp Meta Git Item Unit :=
  modify fun recorder => { recorder with state := f recorder.state }

/-- `RolloutOrdinalState::current` as an operation of the writer. -/
def currentOrdinal : RecorderM Timestamp Meta Git Item (Option Nat) := fun recorder =>
  match recorder.state.ordinalState.current with
  | .ok ordinal => .ok ordinal recorder
  | .error err => .error err recorder

/-- A line with the current ordinal, which is advanced when the line is written. -/
def writeNext (item : Git → StoredItem Meta Git Item) : RecorderM Timestamp Meta Git Item Unit := do
  let ordinal ← currentOrdinal
  writeRolloutItem json item ordinal
  modifyState fun state => { state with ordinalState := state.ordinalState.advance }

def ensureWriterOpen : RecorderM Timestamp Meta Git Item Unit := do
  let recorder ← get
  if recorder.state.writer then pure ()
  else do
    openLogFile
    modifyState fun state => { state with writer := true, deferredLogFileInfo := false }

def writeSessionMeta (sessionMeta : Meta) : RecorderM Timestamp Meta Git Item Unit := do
  let recorder ← get
  if recorder.state.writer then writeNext json (.sessionMeta sessionMeta) else pure ()

def writeSessionMetaIfNeeded : RecorderM Timestamp Meta Git Item Unit := do
  let recorder ← get
  match recorder.state.sessionMeta with
  | none => pure ()
  | some sessionMeta => do
    writeSessionMeta json sessionMeta
    modifyState fun state => { state with sessionMeta := none }

/-- The loop of `write_pending_items_once`, with the number of items that are written and the first error. -/
def writeItems (json : LineJson Timestamp Meta Git Item Value) :
    List Item → RecorderM Timestamp Meta Git Item (Nat × Except IoError Unit)
  | [] => pure (0, .ok ())
  | item :: items => do
    let result ← Wp.attempt (writeNext json fun _ => .item item)
    match result with
    | .error err => pure (0, .error err)
    | .ok () => do
      let (writtenCount, result) ← writeItems json items
      pure (writtenCount + 1, result)

def writePendingItemsOnce : RecorderM Timestamp Meta Git Item Unit := do
  let recorder ← get
  if recorder.state.writer then do
    let (writtenCount, result) ← writeItems json recorder.state.pendingItems
    modifyState fun state => { state with pendingItems := state.pendingItems.drop writtenCount }
    match result with
    | .ok () => pure ()
    | .error err => throw err
  else throw .notOpen

def writePendingOnce : RecorderM Timestamp Meta Git Item Unit := do
  ensureWriterOpen
  writeSessionMetaIfNeeded json
  writePendingItemsOnce json
  flushFile

def enterRecoveryMode (recorder : Recorder Timestamp Meta Git Item) : Recorder Timestamp Meta Git Item :=
  { recorder with state := { recorder.state with writer := false } }

def writePendingWithRecovery : RecorderM Timestamp Meta Git Item Unit := do
  let result ← Wp.attempt (Wp.onError enterRecoveryMode (writePendingOnce json))
  match result with
  | .ok () => pure ()
  | .error (_ : IoError) => Wp.onError enterRecoveryMode (writePendingOnce json)

def persist : RecorderM Timestamp Meta Git Item Unit :=
  writePendingWithRecovery json

def flush : RecorderM Timestamp Meta Git Item Unit := do
  let recorder ← get
  if recorder.state.isDeferred && recorder.state.pendingItems.isEmpty then pure ()
  else writePendingWithRecovery json

def flushIfMaterialized : RecorderM Timestamp Meta Git Item Unit := do
  let recorder ← get
  if recorder.state.isDeferred then pure () else Wp.onError enterRecoveryMode (flush json)

/-! ## Commands -/

inductive RolloutCmd (Item : Type) where
  | addItems (items : List Item)
  | persist
  | flush

/-- What a command adds. -/
def RolloutCmd.items : RolloutCmd Item → List Item
  | .addItems items => items
  | .persist => []
  | .flush => []

/-- One command of `rollout_writer`; an error is sent back and changes nothing more. -/
def handleCmd (recorder : Recorder Timestamp Meta Git Item) : RolloutCmd Item → Recorder Timestamp Meta Git Item
  | .addItems items =>
    Wp.after (flushIfMaterialized json)
      { recorder with state := { recorder.state with pendingItems := recorder.state.pendingItems ++ items } }
  | .persist => Wp.after (persist json) recorder
  | .flush => Wp.after (flush json) recorder

def rolloutWriter (cmds : List (RolloutCmd Item))
    (recorder : Recorder Timestamp Meta Git Item) : Recorder Timestamp Meta Git Item :=
  cmds.foldl (handleCmd json) recorder

/-! ## Records -/

def records (bytes : Bytes) : List (RolloutLine Timestamp Meta Git Item) :=
  (LineLog.completeLines newline bytes).filterMap fun line => (json.fromSlice line).bind json.fromValue

end Dcode.Rollout
