import Dcode.ApplyPatch.Hunk
import Dcode.ApplyPatch.SeekSequence
import Dcode.Lib.Splice

/-!
# From chunks to replacements

`compute_replacements` and `apply_replacements` of `codex-rs/apply-patch/src/lib.rs`: where each
chunk of an update applies, and the new lines of the file.
-/

namespace Dcode.ApplyPatch

/-- A replacement `(start_index, old_len, new_lines)`. -/
abbrev Replacement := Edit Str

/-- The variables of the loop of `compute_replacements`. -/
structure Schedule where
  lineIndex : Nat
  replacements : List Replacement
deriving DecidableEq

variable (lines : List Str)

/-- Where a chunk without old lines goes: the end of the file, or just before a final empty line. -/
def insertionIdx : Nat :=
  if lines.getLast? = some [] then lines.length - 1 else lines.length

/-- Moves `line_index` behind the chunk's context line. -/
def seekContext (path : Str) (lineIndex : Nat) (chunk : UpdateFileChunk) : Except ApplyPatchError Nat :=
  match chunk.changeContext with
  | none => .ok lineIndex
  | some ctxLine =>
    match seekSequence lines [ctxLine] lineIndex false with
    | some idx => .ok (idx + 1)
    | none => .error (.computeReplacements
        ("Failed to find context '".toList ++ ctxLine ++ "' in ".toList ++ path))

def dropEmptyLast (ls : List Str) : List Str := if ls.getLast? = some [] then ls.dropLast else ls

/-- Finds the old lines of a chunk, and without the final empty one if that fails: the start index,
the pattern that was found and the new lines that go with it. -/
def findOldLines (lineIndex : Nat) (chunk : UpdateFileChunk) : Option (Nat × List Str × List Str) :=
  match seekSequence lines chunk.oldLines lineIndex chunk.isEndOfFile with
  | some startIdx => some (startIdx, chunk.oldLines, chunk.newLines)
  | none =>
    if chunk.oldLines.getLast? = some [] then
      (seekSequence lines chunk.oldLines.dropLast lineIndex chunk.isEndOfFile).map fun startIdx =>
        (startIdx, chunk.oldLines.dropLast, dropEmptyLast chunk.newLines)
    else none

/-- The body of the loop of `compute_replacements`. -/
def scheduleChunk (path : Str) (σ : Schedule) (chunk : UpdateFileChunk) : Except ApplyPatchError Schedule := do
  let lineIndex ← seekContext lines path σ.lineIndex chunk
  if chunk.oldLines.isEmpty then
    return ⟨lineIndex, σ.replacements ++ [⟨insertionIdx lines, 0, chunk.newLines⟩]⟩
  match findOldLines lines lineIndex chunk with
  | some (startIdx, pattern, newSlice) =>
    return ⟨startIdx + pattern.length, σ.replacements ++ [⟨startIdx, pattern.length, newSlice⟩]⟩
  | none => throw (.computeReplacements
      ("Failed to find expected lines in ".toList ++ path ++ ":\n".toList ++
        Str.joinLines chunk.oldLines))

/-- The loop of `compute_replacements` over the chunks. -/
def scheduleChunks (path : Str) (chunks : List UpdateFileChunk) : Except ApplyPatchError Schedule :=
  chunks.foldlM (scheduleChunk lines path) ⟨0, []⟩

/-- `compute_replacements`; `sort_by_key` is stable. -/
def computeReplacements (path : Str) (chunks : List UpdateFileChunk) : Except ApplyPatchError (List Replacement) := do
  let σ ← scheduleChunks lines path chunks
  return σ.replacements.insertionSort (fun a b => a.start ≤ b.start)

def removeOldLines (startIdx : Nat) : Nat → List Str → List Str
  | 0, lines => lines
  | oldLen + 1, lines =>
    removeOldLines startIdx oldLen
      (if startIdx < lines.length then lines.eraseIdx startIdx else lines)

def insertNewLines : Nat → List Str → List Str → List Str
  | _, [], lines => lines
  | idx, newLine :: newSegment, lines =>
    insertNewLines (idx + 1) newSegment (lines.insertIdx idx newLine)

def applyReplacements (replacements : List Replacement) : List Str :=
  replacements.reverse.foldl
    (fun lines r => insertNewLines r.start r.newItems (removeOldLines r.start r.oldLen lines)) lines

end Dcode.ApplyPatch
