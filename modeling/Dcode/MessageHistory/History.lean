import Dcode.Lib.Str

/-!
# The message history

`lookup` and `lookup_batch` of `codex-rs/message-history/src/lib.rs` and `batch.rs`, the latter with a fresh cursor: one entry
of `history.jsonl`, or the rows up to an offset. A row is what a buffered reader hands out up to a line feed. What
`serde_json` reads of the bytes of a row is a parameter.
-/

namespace Dcode.MessageHistory

variable {E : Type} (parse : Bytes → Option E)

/-- The rows of a file, each with its line feed if it has one. -/
def rows : Bytes → List Bytes
  | [] => []
  | b :: rest => if b = 10 then [b] :: rows rest else (b :: (rows rest).headD []) :: (rows rest).tail

def isUtf8 (bytes : Bytes) : Bool := (ByteArray.mk bytes.toArray).validateUTF8

def stripSuffix (b : UInt8) (raw : Bytes) : Bytes := if raw.getLast? = some b then raw.dropLast else raw

/-! ## One entry -/

/-- `BufRead::lines` on one row: the line without its end, or an error if it is not UTF-8. -/
def lineOf (row : Bytes) : Option Bytes :=
  if isUtf8 row then some (if row.getLast? = some 10 then stripSuffix 13 row.dropLast else row) else none

def lookupFrom (offset : Nat) : Nat → List Bytes → Option E
  | _, [] => none
  | idx, row :: rows =>
    match lineOf row with
    | none => none
    | some line => if idx = offset then parse line else lookupFrom offset (idx + 1) rows

def lookupHistoryEntry (file : Bytes) (offset : Nat) : Option E := lookupFrom parse offset 0 (rows file)

/-! ## A batch -/

def maxBatchRows : Nat := 128

def maxBatchBytes : Nat := 64 * 1024

/-- An oversized row is not buffered. -/
structure RawHistoryBatchEntry where
  offset : Nat
  bytePosition : Nat
  byteLen : Nat
  bytes : Option Bytes

/-- The rows that are retained, and their bytes in all. -/
abbrev Suffix : Type := List RawHistoryBatchEntry × Nat

/-- The `while` of `retain_row`. -/
def popFront : List RawHistoryBatchEntry → Nat → Suffix
  | [], suffixBytes => ([], suffixBytes)
  | removed :: suffix, suffixBytes =>
    if maxBatchRows < suffix.length + 1 ∨ maxBatchBytes < suffixBytes then
      popFront suffix (suffixBytes - removed.byteLen)
    else (removed :: suffix, suffixBytes)

def retainRow : Suffix → RawHistoryBatchEntry → Suffix
  | (suffix, suffixBytes), entry =>
    if maxBatchBytes < entry.byteLen then ([entry], entry.byteLen)
    else popFront (suffix ++ [entry]) (suffixBytes + entry.byteLen)

/-- The loop of `scan_batch_forward`, with the number of rows it may yet read. -/
def scanRows : Nat → Nat → Nat → Suffix → List Bytes → List RawHistoryBatchEntry
  | left + 1, offset, bytePosition, suffix, row :: rows =>
    let bytes := if row.length ≤ maxBatchBytes then some row else none
    scanRows left (offset + 1) (bytePosition + row.length)
      (retainRow suffix ⟨offset, bytePosition, row.length, bytes⟩) rows
  | _, _, _, suffix, _ => suffix.1

structure HistoryBatchEntry (E : Type) where
  offset : Nat
  entry : Option E

def tryParseEntry (raw : Bytes) : Option E := parse (stripSuffix 13 (stripSuffix 10 raw))

/-- An oversized row is read again from the file. -/
def finishMaterializedBatch (file : Bytes) (entries : List RawHistoryBatchEntry) : List (HistoryBatchEntry E) :=
  entries.map fun raw =>
    ⟨raw.offset, tryParseEntry parse (raw.bytes.getD ((file.drop raw.bytePosition).take raw.byteLen))⟩

def scanBatchForward (file : Bytes) (endOffset : Nat) : List (HistoryBatchEntry E) :=
  finishMaterializedBatch parse file (scanRows (endOffset + 1) 0 0 ([], 0) (rows file)).reverse

/-- The parsed entry that a batch holds for an offset. -/
def entryAt (batch : List (HistoryBatchEntry E)) (offset : Nat) : Option E :=
  (batch.find? (·.offset == offset)).bind (·.entry)

end Dcode.MessageHistory
