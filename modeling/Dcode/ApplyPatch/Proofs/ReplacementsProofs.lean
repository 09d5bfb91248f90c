import Dcode.ApplyPatch.Replacements
import Dcode.ApplyPatch.Proofs.SeekSequenceProofs
import Dcode.Lib.Run

/-!
# Proofs: the replacements of an update

`apply_replacements` splices its replacements into the file when they come in order and stay clear of
each other. Whether they do is decided chunk by chunk: every chunk is found at or after the search
cursor, except that a chunk that ends the file is found there whatever the cursor is, and that a pure
addition always goes to the end.
-/

namespace Dcode.ApplyPatch

open Run List Except Edit

/-! ## `apply_replacements` -/

theorem removeOldLines_eq (startIdx : Nat) : ∀ (oldLen : Nat) (lines : List Str),
    removeOldLines startIdx oldLen lines = lines.take startIdx ++ lines.drop (startIdx + oldLen)
  | 0, lines => by simp [removeOldLines]
  | oldLen + 1, lines => by
    rw [removeOldLines, removeOldLines_eq startIdx oldLen]
    split
    next h =>
      rw [eraseIdx_eq_take_drop_succ, take_append_of_le_length (by rw [length_take]; omega), take_take, min_self,
        drop_append, drop_eq_nil_of_le (by rw [length_take]; omega), nil_append,
        drop_drop, length_take, min_eq_left (by omega)]
      congr 2
      omega
    next h =>
      rw [drop_eq_nil_of_le (by omega), drop_eq_nil_of_le (by omega)]

theorem insertIdx_eq_take_drop (x : Str) : ∀ (idx : Nat) (lines : List Str), idx ≤ lines.length →
    lines.insertIdx idx x = lines.take idx ++ x :: lines.drop idx
  | 0, lines, _ => by simp
  | idx + 1, [], h => by simp at h
  | idx + 1, l :: lines, h => by
    rw [insertIdx_succ_cons, insertIdx_eq_take_drop x idx lines (by simpa using h)]
    simp

theorem insertNewLines_eq : ∀ (idx : Nat) (newSegment lines : List Str), idx ≤ lines.length →
    insertNewLines idx newSegment lines = lines.take idx ++ newSegment ++ lines.drop idx
  | _, [], lines, _ => by simp [insertNewLines]
  | idx, newLine :: newSegment, lines, h => by
    have hins : lines.insertIdx idx newLine = lines.take idx ++ newLine :: lines.drop idx :=
      insertIdx_eq_take_drop newLine idx lines h
    have hlen : (lines.take idx).length = idx := by rw [length_take]; omega
    rw [insertNewLines, insertNewLines_eq (idx + 1) newSegment _ (by rw [hins]; simp [hlen])]
    have htake : (lines.insertIdx idx newLine).take (idx + 1) = lines.take idx ++ [newLine] := by
      rw [hins, take_append, hlen]
      simp
    have hdrop : (lines.insertIdx idx newLine).drop (idx + 1) = lines.drop idx := by
      rw [hins, drop_append, hlen]
      simp
    rw [htake, hdrop]
    simp

variable {lines : List Str}

theorem replaceLines_eq_apply (r : Replacement) (h : r.start ≤ lines.length) :
    insertNewLines r.start r.newItems (removeOldLines r.start r.oldLen lines) = r.apply lines := by
  have hlen : (lines.take r.start).length = r.start := by rw [length_take]; omega
  rw [removeOldLines_eq, insertNewLines_eq _ _ _ (by simp [hlen])]
  have htake : (lines.take r.start ++ lines.drop (r.start + r.oldLen)).take r.start = lines.take r.start := by
    rw [take_append_of_le_length (by omega), take_take, min_self]
  have hdrop : (lines.take r.start ++ lines.drop (r.start + r.oldLen)).drop r.start =
      lines.drop (r.start + r.oldLen) := by
    rw [drop_append, hlen]
    simp
  rw [htake, hdrop]
  rfl

variable {rs : List Replacement}

theorem applyReplacements_eq_applyEdits (hrs : rs.Pairwise Before) (hl : ∀ r ∈ rs, r.stop ≤ lines.length) :
    applyReplacements lines rs = applyEdits lines rs := by
  unfold applyReplacements applyEdits
  rw [foldl_reverse]
  induction rs with
  | nil => rfl
  | cons r rs ih =>
    obtain ⟨hbefore, hrest⟩ := pairwise_cons.mp hrs
    have hlr : r.stop ≤ lines.length := hl r mem_cons_self
    -- the later replacements leave at least the lines up to this one's end
    have hlen : r.start ≤ (applyEdits lines rs).length := by
      have h := congrArg length (take_applyEdits hlr hbefore)
      simp only [length_take] at h
      have hs : r.start ≤ r.stop := Nat.le_add_right _ _
      omega
    rw [foldr_cons, ih hrest fun x hx => hl x (mem_cons_of_mem _ hx)]
    exact replaceLines_eq_apply r hlen

/-- Replacements in order are spliced into the file. -/
theorem applyReplacements_eq_splice (hrs : rs.Pairwise Before) (hl : ∀ r ∈ rs, r.stop ≤ lines.length) :
    applyReplacements lines rs = splice lines 0 rs := by
  rw [applyReplacements_eq_applyEdits hrs hl, applyEdits_eq_splice hrs hl]

/-! ## One chunk -/

theorem insertionIdx_le (lines : List Str) : insertionIdx lines ≤ lines.length := by
  unfold insertionIdx
  split <;> omega

variable {path : Str} {idx : Nat} {chunk : UpdateFileChunk}

theorem seekContext_ok {lineIndex : Nat} (h : seekContext lines path lineIndex chunk = .ok idx)
    (hle : lineIndex ≤ lines.length) : lineIndex ≤ idx ∧ idx ≤ lines.length := by
  unfold seekContext at h
  split at h
  · obtain rfl := ok.inj h
    exact ⟨le_rfl, hle⟩
  · split at h
    next i hi =>
      obtain ⟨hfit, _, hstart, _⟩ := seekSequence_some (by simp) hi
      have hstart := hstart rfl
      have hidx := ok.inj h
      simp only [length_singleton] at hfit
      omega
    · cases h

structure Found (lines : List Str) (idx : Nat) (chunk : UpdateFileChunk) (startIdx : Nat)
    (pattern newSlice : List Str) : Prop where
  pattern_eq : pattern = chunk.oldLines ∨ chunk.oldLines = pattern ++ [[]]
  new_eq : newSlice = chunk.newLines ∨ newSlice = dropEmptyLast chunk.newLines
  empty : pattern = [] → startIdx = idx
  fits : pattern ≠ [] → startIdx + pattern.length ≤ lines.length ∧ Matches lines pattern startIdx
  cursor : pattern ≠ [] → chunk.isEndOfFile = false → idx ≤ startIdx
  tail : pattern ≠ [] → chunk.isEndOfFile → startIdx + pattern.length = lines.length

variable {startIdx : Nat} {pattern newSlice : List Str}

theorem found_of_seekSequence (h : seekSequence lines pattern idx chunk.isEndOfFile = some startIdx)
    (hp : pattern = chunk.oldLines ∨ chunk.oldLines = pattern ++ [[]])
    (hn : newSlice = chunk.newLines ∨ newSlice = dropEmptyLast chunk.newLines) :
    Found lines idx chunk startIdx pattern newSlice := by
  refine ⟨hp, hn, ?_, fun hne => ?_, fun hne => ?_, fun hne => ?_⟩
  · rintro rfl
    simpa [seekSequence, eq_comm] using h
  · obtain ⟨h1, h2, _, _⟩ := seekSequence_some hne h
    exact ⟨h1, h2⟩
  · exact (seekSequence_some hne h).2.2.1
  · exact (seekSequence_some hne h).2.2.2

theorem findOldLines_some (h : findOldLines lines idx chunk = some (startIdx, pattern, newSlice)) :
    Found lines idx chunk startIdx pattern newSlice := by
  unfold findOldLines at h
  split at h
  next s hs =>
    obtain ⟨rfl, rfl, rfl⟩ : s = startIdx ∧ chunk.oldLines = pattern ∧ chunk.newLines = newSlice := by
      simpa using h
    exact found_of_seekSequence hs (Or.inl rfl) (Or.inl rfl)
  · split at h
    next hlast =>
      obtain ⟨s, hs, he⟩ := Option.map_eq_some_iff.mp h
      obtain ⟨rfl, rfl, rfl⟩ : s = startIdx ∧ chunk.oldLines.dropLast = pattern ∧
          dropEmptyLast chunk.newLines = newSlice := by simpa using he
      obtain ⟨front, hfront⟩ := getLast?_eq_some_iff.mp hlast
      exact found_of_seekSequence hs (Or.inr (by rw [hfront]; simp)) (Or.inr rfl)
    · cases h

variable {σ τ : Schedule}

theorem scheduleChunk_cases (h : scheduleChunk lines path σ chunk = .ok τ) :
    ∃ idx, seekContext lines path σ.lineIndex chunk = .ok idx ∧ ((chunk.oldLines = [] ∧
        τ = ⟨idx, σ.replacements ++ [⟨insertionIdx lines, 0, chunk.newLines⟩]⟩) ∨
      (∃ startIdx pattern newSlice, chunk.oldLines ≠ [] ∧
        findOldLines lines idx chunk = some (startIdx, pattern, newSlice) ∧
        τ = ⟨startIdx + pattern.length, σ.replacements ++ [⟨startIdx, pattern.length, newSlice⟩]⟩)) := by
  obtain ⟨idx, hidx, h⟩ := bind_eq_ok.mp h
  refine ⟨idx, hidx, ?_⟩
  split at h
  next hemp =>
    exact Or.inl ⟨by simpa using hemp, (ok.inj h).symm⟩
  next hemp =>
    split at h
    next s p n hfind =>
      exact Or.inr ⟨s, p, n, by simpa using hemp, hfind, (ok.inj h).symm⟩
    · cases h

/-! ## The cursor -/

/-- What holds between two rounds: everything replaced so far lies before the cursor, and an
insertion is at the end of the file or not behind the cursor. -/
structure ScheduleInv (lines : List Str) (σ : Schedule) : Prop where
  cursor_le : σ.lineIndex ≤ lines.length
  stop_le : ∀ r ∈ σ.replacements, r.stop ≤ lines.length
  replaced : ∀ r ∈ σ.replacements, 0 < r.oldLen → r.stop ≤ σ.lineIndex
  inserted : ∀ r ∈ σ.replacements, r.oldLen = 0 → r.start = insertionIdx lines ∨ r.start ≤ σ.lineIndex

theorem scheduleInv_init (lines : List Str) : ScheduleInv lines ⟨0, []⟩ := by
  constructor <;> simp

/-- Scheduling `e` and moving the cursor on to `idx` keeps the invariant. -/
theorem ScheduleInv.push (hσ : ScheduleInv lines σ) {e : Replacement} (hcur : σ.lineIndex ≤ idx)
    (hidx : idx ≤ lines.length) (hstop : e.stop ≤ lines.length) (hrep : 0 < e.oldLen → e.stop ≤ idx)
    (hins : e.oldLen = 0 → e.start = insertionIdx lines ∨ e.start ≤ idx) :
    ScheduleInv lines ⟨idx, σ.replacements ++ [e]⟩ := by
  refine ⟨hidx, fun r hr => ?_, fun r hr hpos => ?_, fun r hr hz => ?_⟩
  · rcases mem_append.mp hr with hr | hr
    · exact hσ.stop_le r hr
    · rw [mem_singleton.mp hr]; exact hstop
  · rcases mem_append.mp hr with hr | hr
    · exact (hσ.replaced r hr hpos).trans hcur
    · rw [mem_singleton.mp hr] at hpos ⊢; exact hrep hpos
  · rcases mem_append.mp hr with hr | hr
    · exact (hσ.inserted r hr hz).imp_right fun h => h.trans hcur
    · rw [mem_singleton.mp hr] at hz ⊢; exact hins hz

theorem scheduleChunk_inv (hσ : ScheduleInv lines σ) (h : scheduleChunk lines path σ chunk = .ok τ) :
    ScheduleInv lines τ := by
  obtain ⟨idx, hctx, ⟨_, rfl⟩ | ⟨s, p, n, _, hfind, rfl⟩⟩ := scheduleChunk_cases h
  · obtain ⟨h1, h2⟩ := seekContext_ok hctx hσ.cursor_le
    exact hσ.push h1 h2 (insertionIdx_le lines) (by simp) fun _ => Or.inl rfl
  · obtain ⟨h1, h2⟩ := seekContext_ok hctx hσ.cursor_le
    have hf := findOldLines_some hfind
    by_cases hp : p = []
    · obtain rfl := hf.empty hp
      subst hp
      exact hσ.push h1 h2 h2 (by simp) fun _ => Or.inr le_rfl
    · obtain ⟨hfit, _⟩ := hf.fits hp
      have hcur : σ.lineIndex ≤ s + p.length := by
        cases heof : chunk.isEndOfFile with
        | false => have := hf.cursor hp heof; omega
        | true => have := hf.tail hp heof; omega
      exact hσ.push hcur hfit hfit (fun _ => le_rfl) fun _ => Or.inr (Nat.le_add_right _ _)

/-! ## When a chunk gets in the way of an earlier one -/

/-- Where a chunk belongs: at the end of the file if it is a pure addition, else at the lines at which its
old lines are found. -/
inductive Place where
  | addition
  | found (start stop : Nat)
deriving DecidableEq

/-- Where the search for the old lines of a chunk starts: at the cursor, or behind the context line. -/
def searchStart (lines : List Str) (cursor : Nat) (chunk : UpdateFileChunk) : Option Nat :=
  match chunk.changeContext with
  | none => some cursor
  | some ctxLine => (seekSequence lines [ctxLine] cursor false).map (· + 1)

/-- The place of the next chunk, if there is one, and the cursor behind it. -/
def placeChunk (lines : List Str) (placed : Nat × List Place) (chunk : UpdateFileChunk) : Nat × List Place :=
  match searchStart lines placed.1 chunk with
  | none => placed
  | some idx =>
    if chunk.oldLines = [] then (idx, placed.2 ++ [.addition])
    else
      match findOldLines lines idx chunk with
      | none => placed
      | some (start, pattern, _) =>
        (start + pattern.length, placed.2 ++ [.found start (start + pattern.length)])

/-- The cursor behind all chunks and their places. -/
def placeChunks (lines : List Str) (chunks : List UpdateFileChunk) : Nat × List Place :=
  chunks.foldl (placeChunk lines) (0, [])

/-- A chunk gets in the way of an earlier one only at the end of the file. -/
def InTheWay (lines : List Str) : Place → Place → Prop
  -- an addition goes before the final empty line, which the earlier chunk replaces
  | .found start stop, .addition => lines.getLast? = some [] ∧ start < stop ∧ stop = lines.length
  -- the later chunk replaces that line and the one before it
  | .addition, .found start stop => lines.getLast? = some [] ∧ start + 1 < lines.length ∧ stop = lines.length
  -- the old lines of the later chunk end the file and start before those of the earlier one end
  | .found start stop, .found start' stop' =>
    start < lines.length ∧ start' < stop ∧ start' < stop' ∧ stop' = lines.length
  | .addition, .addition => False

instance instDecidableInTheWay (lines : List Str) : DecidableRel (InTheWay lines)
  | .found _ _, .addition | .addition, .found _ _ | .found _ _, .found _ _ => inferInstanceAs (Decidable (_ ∧ _))
  | .addition, .addition => inferInstanceAs (Decidable False)

/-- No chunk gets in the way of an earlier one. -/
def Clear (lines : List Str) (chunks : List UpdateFileChunk) : Prop :=
  (placeChunks lines chunks).2.Pairwise fun earlier later => ¬ InTheWay lines earlier later

instance instDecidableClear (lines : List Str) (chunks : List UpdateFileChunk) : Decidable (Clear lines chunks) :=
  inferInstanceAs (Decidable (Pairwise _ _))

/-- The edit is one at the place. -/
def Place.Of (lines : List Str) : Place → Replacement → Prop
  | .addition, r => r.start = insertionIdx lines ∧ r.oldLen = 0
  | .found start stop, r => r.start = start ∧ r.stop = stop

/-- The edit `r` of an earlier chunk and the edit `e` of a later one leave each other alone: in the
order in which the stable sort puts the two, the first ends where the second starts or before. -/
def Coexist (r e : Replacement) : Prop :=
  SortedPair (fun a b : Replacement => a.start ≤ b.start) Edit.Before r e

variable {r : Replacement} {place : Place}

theorem coexist_iff {e : Replacement} : Coexist r e ↔
    (r.start ≤ e.start ∧ r.stop ≤ e.start) ∨ (e.start < r.start ∧ e.stop ≤ r.start) := by
  unfold Coexist SortedPair Before
  split
  · omega
  · omega

theorem insertionIdx_of_last (h : lines.getLast? = some []) : insertionIdx lines + 1 = lines.length := by
  have hne : lines ≠ [] := by
    rintro rfl
    simp at h
  have hpos := length_pos_iff.mpr hne
  rw [insertionIdx, if_pos h]
  omega

theorem insertionIdx_of_not_last (h : lines.getLast? ≠ some []) : insertionIdx lines = lines.length := if_neg h

section

variable (hσ : ScheduleInv lines σ)

include hσ

theorem coexist_addition {newLines : List Str} (hr : r ∈ σ.replacements) (hplace : place.Of lines r) :
    Coexist r ⟨insertionIdx lines, 0, newLines⟩ ↔ ¬ InTheWay lines place .addition := by
  have hstop := hσ.stop_le r hr
  rw [coexist_iff]
  cases place with
  | addition =>
    obtain ⟨hstart, hlen⟩ := hplace
    simp [InTheWay, stop, hstart, hlen]
  | found start stop =>
    obtain ⟨rfl, rfl⟩ := hplace
    unfold InTheWay Edit.stop at *
    by_cases hlast : lines.getLast? = some []
    · have hidx := insertionIdx_of_last hlast
      simp only [hlast, true_and]
      omega
    · have hidx := insertionIdx_of_not_last hlast
      simp only [hlast, false_and, not_false_eq_true, iff_true]
      omega

theorem coexist_found (hidx : σ.lineIndex ≤ idx) (hf : Found lines idx chunk startIdx pattern newSlice)
    (hr : r ∈ σ.replacements) (hplace : place.Of lines r) :
    Coexist r ⟨startIdx, pattern.length, newSlice⟩ ↔
      ¬ InTheWay lines place (.found startIdx (startIdx + pattern.length)) := by
  have hstop := hσ.stop_le r hr
  have hrep := hσ.replaced r hr
  have hins := hσ.inserted r hr
  have hwhere : pattern.length = 0 ∧ startIdx = idx ∨ 0 < pattern.length ∧
      (idx ≤ startIdx ∨ startIdx + pattern.length = lines.length) := by
    by_cases hp : pattern = []
    · exact Or.inl ⟨by rw [hp, length_nil], hf.empty hp⟩
    · refine Or.inr ⟨length_pos_iff.mpr hp, ?_⟩
      cases heof : chunk.isEndOfFile with
      | false => exact Or.inl (hf.cursor hp heof)
      | true => exact Or.inr (hf.tail hp heof)
  have hfit : startIdx + pattern.length ≤ lines.length ∨ pattern.length = 0 := by
    by_cases hp : pattern = []
    · exact Or.inr (by rw [hp, length_nil])
    · exact Or.inl (hf.fits hp).1
  -- an earlier insertion behind the cursor is one at the end of the file
  have hlast : (lines.getLast? = some [] ∧ insertionIdx lines + 1 = lines.length) ∨
      (lines.getLast? ≠ some [] ∧ insertionIdx lines = lines.length) := by
    by_cases hlast : lines.getLast? = some []
    · exact Or.inl ⟨hlast, insertionIdx_of_last hlast⟩
    · exact Or.inr ⟨hlast, insertionIdx_of_not_last hlast⟩
  rw [coexist_iff]
  cases place with
  | addition =>
    obtain ⟨hstart, hlen⟩ := hplace
    unfold InTheWay Edit.stop at *
    rcases hlast with ⟨hlast, hend⟩ | ⟨hlast, hend⟩
    · simp only [hlast, true_and]
      omega
    · simp only [hlast, false_and, not_false_eq_true, iff_true]
      omega
  | found start stop =>
    obtain ⟨rfl, rfl⟩ := hplace
    simp only [InTheWay, Edit.stop] at *
    omega

end

theorem seekContext_eq_ok {cursor : Nat} : seekContext lines path cursor chunk = .ok idx ↔
    searchStart lines cursor chunk = some idx := by
  unfold seekContext searchStart
  cases chunk.changeContext with
  | none => simp
  | some ctxLine =>
    dsimp only
    cases seekSequence lines [ctxLine] cursor false with
    | none => simp
    | some i => simp

/-- The edit of the next chunk is one at its place, and it leaves the earlier edits alone unless the place gets in the
way of theirs. -/
theorem scheduleChunk_place (hσ : ScheduleInv lines σ) (h : scheduleChunk lines path σ chunk = .ok τ)
    (placed : List Place) : ∃ e place, τ.replacements = σ.replacements ++ [e] ∧
      placeChunk lines (σ.lineIndex, placed) chunk = (τ.lineIndex, placed ++ [place]) ∧ place.Of lines e ∧
      ∀ r ∈ σ.replacements, ∀ earlier : Place, earlier.Of lines r →
        (Coexist r e ↔ ¬ InTheWay lines earlier place) := by
  obtain ⟨idx, hctx, ⟨hold, rfl⟩ | ⟨s, p, n, hold, hfind, rfl⟩⟩ := scheduleChunk_cases h
  · refine ⟨_, .addition, rfl, ?_, ⟨rfl, rfl⟩, fun r hr earlier hplace => coexist_addition hσ hr hplace⟩
    simp only [placeChunk, seekContext_eq_ok.mp hctx, hold, if_true]
  · obtain ⟨hidx, _⟩ := seekContext_ok hctx hσ.cursor_le
    refine ⟨_, .found s (s + p.length), rfl, ?_, ⟨rfl, rfl⟩, fun r hr earlier hplace => ?_⟩
    · simp only [placeChunk, seekContext_eq_ok.mp hctx, hold, if_false, hfind]
    · exact coexist_found hσ hidx (findOldLines_some hfind) hr hplace

/-! ## All chunks -/

variable {chunks : List UpdateFileChunk}

/-- The run of the loop: its invariant, the places of its edits and when the edits leave each other alone. -/
theorem scheduleChunks_spec : ∀ {σ : Schedule}, scheduleChunks lines path chunks = .ok σ → ScheduleInv lines σ ∧
      (placeChunks lines chunks).1 = σ.lineIndex ∧
      Forall₂ (Place.Of lines) (placeChunks lines chunks).2 σ.replacements ∧
      (σ.replacements.Pairwise Coexist ↔ Clear lines chunks) := by
  induction chunks using reverseRecOn with
  | nil =>
    intro σ h
    obtain rfl := ok.inj h
    exact ⟨scheduleInv_init lines, rfl, .nil, by simp [Clear, placeChunks]⟩
  | append_singleton chunks chunk ih =>
    intro τ h
    obtain ⟨σ, hσ, hstep⟩ := foldlM_concat_eq_ok.mp h
    obtain ⟨hinv, hcursor, hplaces, hpair⟩ := ih hσ
    obtain ⟨e, place, he, hplace, hof, hway⟩ := scheduleChunk_place hinv hstep (placeChunks lines chunks).2
    have hrun : placeChunks lines (chunks ++ [chunk]) = (τ.lineIndex, (placeChunks lines chunks).2 ++ [place]) := by
      rw [← hplace, ← hcursor, placeChunks, foldl_append]
      rfl
    refine ⟨scheduleChunk_inv hinv hstep, by rw [hrun], by rw [hrun, he]; exact rel_append hplaces (.cons hof .nil), ?_⟩
    have hlast : (∀ r ∈ σ.replacements, Coexist r e) ↔
        ∀ earlier ∈ (placeChunks lines chunks).2, ¬ InTheWay lines earlier place := by
      constructor
      · intro hall earlier hearlier
        obtain ⟨r, hr, hrof⟩ := exists_of_mem_right hplaces.flip hearlier
        exact (hway r hr earlier hrof).mp (hall r hr)
      · intro hall r hr
        obtain ⟨earlier, hearlier, hrof⟩ := exists_of_mem_right hplaces hr
        exact (hway r hr earlier hrof).mpr (hall earlier hearlier)
    rw [Clear, hrun, he, pairwise_append, pairwise_append, hpair, Clear]
    simp only [pairwise_singleton, mem_singleton, forall_eq, hlast]

/-- The replacement that a chunk schedules: an insertion of its new lines, or a replacement of lines
that its old lines match. -/
def Scheduled (lines : List Str) (chunk : UpdateFileChunk) (r : Replacement) : Prop :=
  (r.newItems = chunk.newLines ∨ r.newItems = dropEmptyLast chunk.newLines) ∧
  (r.oldLen = 0 ∨ ∃ pattern, (pattern = chunk.oldLines ∨ chunk.oldLines = pattern ++ [[]]) ∧
    r.oldLen = pattern.length ∧ Matches lines pattern r.start)

theorem scheduleChunk_scheduled (h : scheduleChunk lines path σ chunk = .ok τ) :
    ∃ e, τ.replacements = σ.replacements ++ [e] ∧ Scheduled lines chunk e := by
  obtain ⟨idx, _, ⟨_, rfl⟩ | ⟨s, p, n, _, hfind, rfl⟩⟩ := scheduleChunk_cases h
  · exact ⟨_, rfl, Or.inl rfl, Or.inl rfl⟩
  · have hf := findOldLines_some hfind
    refine ⟨_, rfl, hf.new_eq, ?_⟩
    by_cases hp : p = []
    · exact Or.inl (by simp [hp])
    · exact Or.inr ⟨p, hf.pattern_eq, rfl, (hf.fits hp).2⟩

theorem scheduleChunks_scheduled : ∀ {σ : Schedule}, scheduleChunks lines path chunks = .ok σ →
      Forall₂ (Scheduled lines) chunks σ.replacements := by
  induction chunks using reverseRecOn with
  | nil =>
    intro σ h
    obtain rfl := ok.inj h
    exact .nil
  | append_singleton chunks chunk ih =>
    intro τ h
    obtain ⟨σ, hσ, hstep⟩ := foldlM_concat_eq_ok.mp h
    obtain ⟨e, he, hsched⟩ := scheduleChunk_scheduled hstep
    rw [he]
    exact rel_append (ih hσ) (.cons hsched .nil)

/-! ## The result of `compute_replacements` -/

/-- The replacements are sorted, stay within the file and clear of each other, and applying them
puts every chunk's new lines in and takes only lines out that a chunk matched. -/
structure ReplacementsOk (lines : List Str) (chunks : List UpdateFileChunk) (rs : List Replacement) : Prop where
  sorted : rs.Pairwise fun a b => a.start ≤ b.start
  inRange : ∀ r ∈ rs, r.stop ≤ lines.length
  disjoint : rs.Pairwise fun a b => 0 < a.oldLen → 0 < b.oldLen → a.stop ≤ b.start ∨ b.stop ≤ a.start
  notInside : ∀ r ∈ rs, ∀ i ∈ rs, 0 < r.oldLen → i.oldLen = 0 → ¬ (r.start < i.start ∧ i.start < r.stop)
  notAfter : rs.Pairwise fun a b => 0 < a.oldLen → b.oldLen = 0 → a.start ≠ b.start
  fromChunks : ∃ scheduled, List.Forall₂ (Scheduled lines) chunks scheduled ∧ scheduled.Perm rs
  applied : applyReplacements lines rs = splice lines 0 rs

/-- Sorted replacements that are disjoint, with no insertion inside or at the start of an earlier
one, are replacements each of which ends before the next starts. -/
theorem pairwise_before_of_clear (sorted : rs.Pairwise fun a b => a.start ≤ b.start)
    (disjoint : rs.Pairwise fun a b => 0 < a.oldLen → 0 < b.oldLen → a.stop ≤ b.start ∨ b.stop ≤ a.start)
    (notInside : ∀ r ∈ rs, ∀ i ∈ rs, 0 < r.oldLen → i.oldLen = 0 → ¬ (r.start < i.start ∧ i.start < r.stop))
    (notAfter : rs.Pairwise fun a b => 0 < a.oldLen → b.oldLen = 0 → a.start ≠ b.start) :
    rs.Pairwise Before := by
  have hboth := (sorted.and disjoint).and notAfter
  refine hboth.imp_of_mem fun {a b} ha hb h => ?_
  have hi := notInside a ha b hb
  unfold Before stop at *
  rcases Nat.eq_zero_or_pos a.oldLen with hz | hpos
  · omega
  · rcases Nat.eq_zero_or_pos b.oldLen with hzb | hposb
    · omega
    · omega

theorem notInside_of_pairwise_before (h : rs.Pairwise Before) : ∀ r ∈ rs, ∀ i ∈ rs, 0 < r.oldLen → i.oldLen = 0 →
      ¬ (r.start < i.start ∧ i.start < r.stop) := by
  refine Pairwise.forall_of_forall_of_flip (fun r _ => ?_) (h.imp ?_) (h.imp ?_)
  · omega
  · unfold Before stop at *
    omega
  · unfold flip Before stop at *
    omega

theorem replacementsOk_iff (h : scheduleChunks lines path chunks = .ok σ) :
    ReplacementsOk lines chunks (σ.replacements.insertionSort fun a b => a.start ≤ b.start) ↔
      Clear lines chunks := by
  obtain ⟨hinv, -, -, hpair⟩ := scheduleChunks_spec h
  rw [← hpair]
  have hsort := pairwise_insertionSort_iff (fun a b : Replacement => a.start ≤ b.start)
    (Q := Before) (l := σ.replacements)
  constructor
  · intro hok
    exact hsort.mp (pairwise_before_of_clear hok.sorted hok.disjoint hok.notInside hok.notAfter)
  · intro hco
    have hbefore := hsort.mpr hco
    have hrange : ∀ r ∈ σ.replacements.insertionSort fun a b => a.start ≤ b.start,
        r.stop ≤ lines.length := fun r hr => hinv.stop_le r ((mem_insertionSort _).mp hr)
    refine ⟨pairwise_insertionSort _ _, hrange, hbefore.imp ?_, notInside_of_pairwise_before hbefore, hbefore.imp ?_,
      ⟨_, scheduleChunks_scheduled h, (perm_insertionSort _ _).symm⟩,
      applyReplacements_eq_splice hbefore hrange⟩
    · intro a b hab _ _
      exact Or.inl hab
    · intro a b hab hpos _
      unfold Before stop at hab
      omega

/-- A chunk behind a context line, an addition and a chunk at the end of the file, which has an empty last line. -/
def spacedChunks : List UpdateFileChunk :=
  [⟨some "a".toList, ["b".toList], ["c".toList], false⟩, ⟨none, [], ["x".toList], false⟩, ⟨none, [[]], ["y".toList], true⟩]

end Dcode.ApplyPatch
