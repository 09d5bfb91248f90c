import Dcode.Lib.Str

/-!
# Looking for a block of lines in a file

`seek_sequence` of `codex-rs/apply-patch/src/seek_sequence.rs`: four passes over the candidate
positions, each more lenient than the one before. Every pass compares a line with a pattern line
after the same transformation of both, here the *view* of the pass.
-/

namespace Dcode.ApplyPatch

/-- The character map of `normalise`: typographic dashes, quotes and spaces become ASCII. -/
def normaliseChar (c : Char) : Char :=
  let n := c.toNat
  if (0x2010 ≤ n ∧ n ≤ 0x2015) ∨ n = 0x2212 then '-'
  else if 0x2018 ≤ n ∧ n ≤ 0x201B then Char.ofNat 0x27
  else if 0x201C ≤ n ∧ n ≤ 0x201F then '"'
  else if n = 0xA0 ∨ (0x2002 ≤ n ∧ n ≤ 0x200A) ∨ n = 0x202F ∨ n = 0x205F ∨ n = 0x3000 then ' '
  else c

def normalise (s : Str) : Str := (Str.trim s).map normaliseChar

def matchesAt (view : Str → Str) (lines pattern : List Str) (i : Nat) : Bool :=
  ((lines.drop i).take pattern.length).map view == pattern.map view

/-- One pass: the first position of `search_start..=lines.len().saturating_sub(pattern.len())`
at which the pattern stands. -/
def searchFrom (view : Str → Str) (lines pattern : List Str) (searchStart : Nat) : Option Nat :=
  (List.range' searchStart (lines.length - pattern.length + 1 - searchStart)).find?
    (matchesAt view lines pattern)

/-- `seek_sequence`. With `eof` the search starts at the only position at which the pattern can end
the file, whatever `start` is. -/
def seekSequence (lines pattern : List Str) (start : Nat) (eof : Bool) : Option Nat :=
  if pattern.isEmpty then some start
  else if pattern.length > lines.length then none
  else
    let searchStart :=
      if eof && lines.length ≥ pattern.length then lines.length - pattern.length else start
    searchFrom id lines pattern searchStart
      <|> searchFrom Str.trimEnd lines pattern searchStart
      <|> searchFrom Str.trim lines pattern searchStart
      <|> searchFrom normalise lines pattern searchStart

/-! ## The loops with their indices -/

/-- The inner loop of a pass; there is no result where `lines` has no such index. -/
def compareLines (view : Str → Str) (lines : List Str) : List Str → Nat → Option Bool
  | [], _ => some true
  | pat :: pattern, i => do
    let line ← lines[i]?
    if view line ≠ view pat then return false
    compareLines view lines pattern (i + 1)

def compareSlice (lines pattern : List Str) (i : Nat) : Option Bool :=
  if i + pattern.length ≤ lines.length then some ((lines.drop i).take pattern.length == pattern) else none

def passLoop (compare : Nat → Option Bool) : List Nat → Option (Option Nat)
  | [] => some none
  | i :: positions => do
    if ← compare i then return some i
    passLoop compare positions

/-- The passes in order, up to the first one that finds a position. -/
def runPasses (positions : List Nat) : List (Nat → Option Bool) → Option (Option Nat)
  | [] => some none
  | compare :: passes => do
    if let some i ← passLoop compare positions then return some i
    runPasses positions passes

/-- `seek_sequence` as its loops are written: `none` is an index out of bounds. -/
def seekSequenceIndexed (lines pattern : List Str) (start : Nat) (eof : Bool) : Option (Option Nat) :=
  if pattern.isEmpty then some (some start)
  else if pattern.length > lines.length then some none
  else
    let searchStart :=
      if eof && lines.length ≥ pattern.length then lines.length - pattern.length else start
    runPasses (List.range' searchStart (lines.length - pattern.length + 1 - searchStart))
      [compareSlice lines pattern, compareLines Str.trimEnd lines pattern, compareLines Str.trim lines pattern,
        compareLines normalise lines pattern]

end Dcode.ApplyPatch
