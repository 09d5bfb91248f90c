import Dcode.Lib.Str

/-!
# Cutting out the middle of a text

`codex-rs/utils/string/src/truncate.rs`. A slice of a text at a place inside a character is a panic, `none`. The counts are
below what a `usize` holds, so that no sum or product saturates.
-/

namespace Dcode.Truncation

open Str (byteLen)

def approxBytesPerToken : Nat := 4

def approxTokenCount (text : Str) : Nat := (byteLen text + (approxBytesPerToken - 1)) / approxBytesPerToken

def approxBytesForTokens (tokens : Nat) : Nat := tokens * approxBytesPerToken

def approxTokensFromByteCount (bytes : Nat) : Nat := (bytes + (approxBytesPerToken - 1)) / approxBytesPerToken

def sliceAt : Str → Nat → Option (Str × Str)
  | s, 0 => some ([], s)
  | [], _ + 1 => none
  | ch :: s, index =>
    if ch.utf8Size ≤ index then (sliceAt s (index - ch.utf8Size)).map fun (before, after) => (ch :: before, after) else none

structure SplitScan where
  prefixEnd : Nat
  suffixStart : Nat
  removedChars : Nat
  suffixStarted : Bool

def SplitScan.step (beginningBytes tailStartTarget : Nat) (st : SplitScan) (idx : Nat) (ch : Char) : SplitScan :=
  let charEnd := idx + ch.utf8Size
  if charEnd ≤ beginningBytes then { st with prefixEnd := charEnd }
  else if idx ≥ tailStartTarget then
    if !st.suffixStarted then { st with suffixStart := idx, suffixStarted := true } else st
  else { st with removedChars := st.removedChars + 1 }

def SplitScan.run (beginningBytes tailStartTarget : Nat) : Nat → Str → SplitScan → SplitScan
  | _, [], st => st
  | idx, ch :: s, st =>
    run beginningBytes tailStartTarget (idx + ch.utf8Size) s (st.step beginningBytes tailStartTarget idx ch)

def splitString (s : Str) (beginningBytes endBytes : Nat) : Option (Nat × Str × Str) :=
  if s.isEmpty then some (0, [], [])
  else do
    let tailStartTarget := byteLen s - endBytes
    let st := SplitScan.run beginningBytes tailStartTarget 0 s ⟨0, byteLen s, 0, false⟩
    let suffixStart := if st.suffixStart < st.prefixEnd then st.prefixEnd else st.suffixStart
    let (before, _) ← sliceAt s st.prefixEnd
    let (_, after) ← sliceAt s suffixStart
    return (st.removedChars, before, after)

def splitBudget (budget : Nat) : Nat × Nat := (budget / 2, budget - budget / 2)

def formatTruncationMarker (useTokens : Bool) (removedCount : Nat) : Str :=
  let units := if useTokens then " tokens truncated…" else " chars truncated…"
  '…' :: (toString removedCount).toList ++ units.toList

def removedUnits (useTokens : Bool) (removedBytes removedChars : Nat) : Nat :=
  if useTokens then approxTokensFromByteCount removedBytes else removedChars

def truncateWithByteEstimate (s : Str) (maxBytes : Nat) (useTokens : Bool) : Option Str :=
  if s.isEmpty then some []
  else if maxBytes = 0 then some (formatTruncationMarker useTokens (removedUnits useTokens (byteLen s) s.length))
  else if byteLen s ≤ maxBytes then some s
  else do
    let (leftBudget, rightBudget) := splitBudget maxBytes
    let (removedChars, left, right) ← splitString s leftBudget rightBudget
    let marker := formatTruncationMarker useTokens (removedUnits useTokens (byteLen s - maxBytes) removedChars)
    return left ++ marker ++ right

def truncateMiddleChars (s : Str) (maxBytes : Nat) : Option Str := truncateWithByteEstimate s maxBytes false

def truncateMiddleWithTokenBudget (s : Str) (maxTokens : Nat) : Option (Str × Option Nat) :=
  if s.isEmpty then some ([], none)
  else if maxTokens > 0 ∧ byteLen s ≤ approxBytesForTokens maxTokens then some (s, none)
  else do
    let truncated ← truncateWithByteEstimate s (approxBytesForTokens maxTokens) true
    return (truncated, if truncated = s then none else some (approxTokenCount s))

end Dcode.Truncation
