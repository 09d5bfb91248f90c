import Dcode.ApplyPatch.SeekSequence

/-!
# Proofs: where `seek_sequence` finds a pattern

A position that is found is the first of the searched range at which the pattern stands, at the strictest of the four levels
at which it stands anywhere there.
-/

namespace Dcode.ApplyPatch

open List Nat

def levels : List (Str → Str) := [id, Str.trimEnd, Str.trim, normalise]

def Matches (lines pattern : List Str) (i : Nat) : Prop :=
  ∃ view ∈ levels, matchesAt view lines pattern i

variable {lines pattern : List Str} {i : Nat}

theorem searchFrom_some {view : Str → Str} {searchStart : Nat} (h : searchFrom view lines pattern searchStart = some i) :
    searchStart ≤ i ∧ i ≤ lines.length - pattern.length ∧ matchesAt view lines pattern i := by
  have hmem := mem_of_find?_eq_some h
  rw [mem_range'_1] at hmem
  exact ⟨hmem.1, by omega, find?_some h⟩

section

variable (hne : pattern ≠ [])

include hne

theorem seekSequence_eq_none_of_length (hlen : lines.length < pattern.length) (start : Nat) (eof : Bool) :
    seekSequence lines pattern start eof = none := by
  rw [seekSequence, isEmpty_eq_false_iff.mpr hne, if_neg Bool.false_ne_true, if_pos hlen]

theorem seekSequence_eq_findSome (hlen : pattern.length ≤ lines.length) (start : Nat) (eof : Bool) :
    seekSequence lines pattern start eof =
      levels.findSome? fun view => searchFrom view lines pattern (if eof then lines.length - pattern.length else start) := by
  have hstart : (eof && decide (lines.length ≥ pattern.length)) = eof := by simp [hlen]
  rw [seekSequence, isEmpty_eq_false_iff.mpr hne, if_neg Bool.false_ne_true, if_neg (by omega), hstart]
  simp only [levels, findSome?_cons]
  generalize (if eof then lines.length - pattern.length else start) = searchStart
  cases searchFrom id lines pattern searchStart with
  | some i => rfl
  | none =>
    cases searchFrom Str.trimEnd lines pattern searchStart with
    | some i => rfl
    | none =>
      cases searchFrom Str.trim lines pattern searchStart with
      | some i => rfl
      | none => cases searchFrom normalise lines pattern searchStart <;> rfl

theorem seekSequence_some_pass {start : Nat} {eof : Bool} (h : seekSequence lines pattern start eof = some i) :
    pattern.length ≤ lines.length ∧
    ∃ view ∈ levels, searchFrom view lines pattern (if eof then lines.length - pattern.length else start) = some i := by
  by_cases hlen : pattern.length ≤ lines.length
  · rw [seekSequence_eq_findSome hne hlen] at h
    exact ⟨hlen, exists_of_findSome?_eq_some h⟩
  · rw [seekSequence_eq_none_of_length hne (by omega)] at h
    cases h

/-- What a found position says: the pattern fits and matches there, at or after `start`, and with
`eof` it ends the file. -/
theorem seekSequence_some {start : Nat} {eof : Bool} (h : seekSequence lines pattern start eof = some i) :
    i + pattern.length ≤ lines.length ∧ Matches lines pattern i ∧
    (eof = false → start ≤ i) ∧ (eof → i + pattern.length = lines.length) := by
  obtain ⟨hle, view, hview, hpass⟩ := seekSequence_some_pass hne h
  obtain ⟨h1, h2, h3⟩ := searchFrom_some hpass
  refine ⟨by omega, ⟨view, hview, h3⟩, ?_, ?_⟩
  · rintro rfl
    simpa using h1
  · rintro rfl
    simp only [if_true] at h1
    omega

end

/-! ## The least position at the strictest level -/

def StandsAt (view : Str → Str) (lines pattern : List Str) (i : Nat) : Prop :=
  ∀ j < pattern.length, lines[i + j]?.map view = pattern[j]?.map view

def positions (view : Str → Str) (lines pattern : List Str) (start : Nat) : Set Nat :=
  {i | start ≤ i ∧ i + pattern.length ≤ lines.length ∧ StandsAt view lines pattern i}

section

variable (view : Str → Str)

theorem matchesAt_cons (hlt : i < lines.length) (pat : Str) :
    matchesAt view lines (pat :: pattern) i = (view lines[i] == view pat && matchesAt view lines pattern (i + 1)) := by
  rw [matchesAt, drop_eq_getElem_cons hlt]
  rfl

theorem compareLines_eq (h : i + pattern.length ≤ lines.length) :
    compareLines view lines pattern i = some (matchesAt view lines pattern i) := by
  induction pattern generalizing i with
  | nil => simp [compareLines, matchesAt]
  | cons pat pattern ih =>
    rw [length_cons] at h
    have hlt : i < lines.length := by omega
    rw [matchesAt_cons view hlt]
    simp only [compareLines, getElem?_eq_getElem hlt]
    by_cases hview : view lines[i] = view pat
    · simp [hview, ih (show i + 1 + pattern.length ≤ lines.length by omega)]
    · simp [hview]

theorem compareSlice_eq (h : i + pattern.length ≤ lines.length) :
    compareSlice lines pattern i = some (matchesAt id lines pattern i) := by
  rw [compareSlice, if_pos h, matchesAt, map_id, map_id]

theorem passLoop_eq {compare : Nat → Option Bool} {p : Nat → Bool} {positions : List Nat}
    (h : ∀ i ∈ positions, compare i = some (p i)) : passLoop compare positions = some (positions.find? p) := by
  induction positions with
  | nil => rfl
  | cons i positions ih =>
    obtain ⟨hi, hrest⟩ := forall_mem_cons.mp h
    rw [passLoop, hi, find?_cons]
    cases p i with
    | true => rfl
    | false => exact ih hrest

theorem runPasses_cons {compare : Nat → Option Bool} {p : Nat → Bool} {positions : List Nat}
    (h : ∀ i ∈ positions, compare i = some (p i)) {passes : List (Nat → Option Bool)} {r : Option Nat}
    (hr : runPasses positions passes = some r) :
    runPasses positions (compare :: passes) = some (positions.find? p <|> r) := by
  rw [runPasses, passLoop_eq h]
  cases positions.find? p with
  | none => exact hr
  | some i => rfl

/-- No pass takes an index that `lines` does not have. -/
theorem seekSequenceIndexed_eq (lines pattern : List Str) (start : Nat) (eof : Bool) :
    seekSequenceIndexed lines pattern start eof = some (seekSequence lines pattern start eof) := by
  unfold seekSequenceIndexed seekSequence
  split
  · rfl
  · split
    · rfl
    · generalize (if eof && lines.length ≥ pattern.length then lines.length - pattern.length else start) = searchStart
      have hfits : ∀ i ∈ range' searchStart (lines.length - pattern.length + 1 - searchStart),
          i + pattern.length ≤ lines.length := by
        intro i hi
        rw [mem_range'_1] at hi
        omega
      refine runPasses_cons (fun i hi => compareSlice_eq (hfits i hi)) ?_
      refine runPasses_cons (fun i hi => compareLines_eq _ (hfits i hi)) ?_
      refine runPasses_cons (fun i hi => compareLines_eq _ (hfits i hi)) ?_
      have hnil (positions : List Nat) : runPasses positions [] = some none := rfl
      rw [runPasses_cons (fun i hi => compareLines_eq normalise (hfits i hi)) (hnil _)]
      simp [searchFrom]

theorem matchesAt_iff (h : i + pattern.length ≤ lines.length) :
    matchesAt view lines pattern i ↔ StandsAt view lines pattern i := by
  induction pattern generalizing i with
  | nil => simp [matchesAt, StandsAt]
  | cons pat pattern ih =>
    rw [length_cons] at h
    have hlt : i < lines.length := by omega
    rw [matchesAt_cons view hlt, Bool.and_eq_true, ih (by omega), beq_iff_eq]
    constructor
    · rintro ⟨hfirst, hrest⟩ j hj
      cases j with
      | zero => simp [getElem?_eq_getElem hlt, hfirst]
      | succ j =>
        have hnext := hrest j (lt_of_succ_lt_succ hj)
        rwa [add_right_comm] at hnext
    · intro hall
      refine ⟨?_, fun j hj => ?_⟩
      · have hfirst := hall 0 (succ_pos _)
        simpa [getElem?_eq_getElem hlt] using hfirst
      · have hnext := hall (j + 1) (succ_lt_succ hj)
        rwa [← add_assoc, add_right_comm] at hnext

variable {start : Nat}

theorem mem_positions (hlen : pattern.length ≤ lines.length) : i ∈ positions view lines pattern start ↔
      i ∈ range' start (lines.length - pattern.length + 1 - start) ∧ matchesAt view lines pattern i := by
  have hrange : i ∈ range' start (lines.length - pattern.length + 1 - start) ↔
      start ≤ i ∧ i + pattern.length ≤ lines.length := by
    rw [mem_range'_1]
    omega
  rw [hrange, and_assoc]
  exact and_congr_right fun _ => and_congr_right fun hfits => (matchesAt_iff view hfits).symm

theorem searchFrom_eq_some_iff (hlen : pattern.length ≤ lines.length) :
    searchFrom view lines pattern start = some i ↔ IsLeast (positions view lines pattern start) i := by
  rw [searchFrom, find?_range'_eq_some]
  constructor
  · rintro ⟨hmatch, hrange, hbefore⟩
    refine ⟨(mem_positions view hlen).mpr ⟨hrange, hmatch⟩, fun j hj => ?_⟩
    by_contra hlt
    have hnot := hbefore j hj.1 (by omega)
    rw [((mem_positions view hlen).mp hj).2] at hnot
    cases hnot
  · rintro ⟨hmem, hleast⟩
    obtain ⟨hrange, hmatch⟩ := (mem_positions view hlen).mp hmem
    refine ⟨hmatch, hrange, fun j hstart hlt => ?_⟩
    rw [Bool.not_eq_true']
    by_contra hj
    have hjrange : j ∈ range' start (lines.length - pattern.length + 1 - start) := by
      rw [mem_range'_1] at hrange ⊢
      omega
    have hle := hleast ((mem_positions view hlen).mpr ⟨hjrange, Bool.eq_true_of_not_eq_false hj⟩)
    omega

theorem searchFrom_eq_none_iff (hlen : pattern.length ≤ lines.length) :
    searchFrom view lines pattern start = none ↔ positions view lines pattern start = ∅ := by
  rw [searchFrom, find?_eq_none, Set.eq_empty_iff_forall_notMem]
  refine forall_congr' fun i => ?_
  rw [mem_positions view hlen, not_and]

end

/-- The first position of the range at which the pattern stands, at the strictest level at which it stands anywhere there; and
no index is out of bounds. -/
theorem seekSequence_least (lines pattern : List Str) (start : Nat) (hne : pattern ≠ []) :
    seekSequenceIndexed lines pattern start false = some (seekSequence lines pattern start false) ∧
      (∀ i, seekSequence lines pattern start false = some i ↔
        ∃ stricter view laxer, levels = stricter ++ view :: laxer ∧
          (∀ v ∈ stricter, positions v lines pattern start = ∅) ∧ IsLeast (positions view lines pattern start) i) ∧
      (seekSequence lines pattern start false = none ↔ ∀ view ∈ levels, positions view lines pattern start = ∅) := by
  refine ⟨seekSequenceIndexed_eq lines pattern start false, ?_⟩
  by_cases hlen : pattern.length ≤ lines.length
  · rw [seekSequence_eq_findSome hne hlen, if_neg Bool.false_ne_true]
    refine ⟨fun i => ?_, ?_⟩
    · simp only [findSome?_eq_some_iff, searchFrom_eq_some_iff _ hlen, searchFrom_eq_none_iff _ hlen]
      refine exists_congr fun _ => exists_congr fun _ => exists_congr fun _ => and_congr_right fun _ => and_comm
    · simp [searchFrom_eq_none_iff _ hlen]
  · -- the pattern is longer than the file
    have hempty : ∀ view, positions view lines pattern start = ∅ := by
      intro view
      rw [Set.eq_empty_iff_forall_notMem]
      rintro i ⟨-, hfits, -⟩
      omega
    have hnone := seekSequence_eq_none_of_length hne (Nat.lt_of_not_le hlen) start false
    refine ⟨fun i => ?_, ⟨fun _ view _ => hempty view, fun _ => hnone⟩⟩
    rw [hnone]
    refine ⟨fun hsome => (by cases hsome), ?_⟩
    rintro ⟨_, view, _, -, -, hleast, -⟩
    rw [hempty view] at hleast
    exact absurd hleast (Set.notMem_empty i)

theorem seekSequence_least_typographic :
    seekSequence ["a".toList, "x – y".toList, "x - y ".toList] ["x - y".toList] 0 false = some 2 ∧
      ∃ stricter view laxer, levels = stricter ++ view :: laxer ∧
        (∀ v ∈ stricter, positions v ["a".toList, "x – y".toList, "x - y ".toList] ["x - y".toList] 0 = ∅) ∧
        IsLeast (positions view ["a".toList, "x – y".toList, "x - y ".toList] ["x - y".toList] 0) 2 := by
  have hfound : seekSequence ["a".toList, "x – y".toList, "x - y ".toList] ["x - y".toList] 0 false = some 2 := by decide
  exact ⟨hfound, ((seekSequence_least _ _ 0 (by decide)).2.1 2).mp hfound⟩

end Dcode.ApplyPatch
