import Dcode.ApplyPatch.PatchShape
import Dcode.ApplyPatch.Proofs.StreamingParserProofs

/-!
# Proofs: the streaming parser refines the shape machine

Every line the parser accepts moves its shape as `Shape.step` says, and every line it rejects has no
step there. The contents of its hunks grow by `Shape.gain`.
-/

namespace Dcode.ApplyPatch

open List Shape Option Str UpdateFileChunk

open Str (trim trimEnd stripPrefix stripCr)

/-! ## The shape of a parser -/

def chunksShape (movePath : Option Str) (chunks : List UpdateFileChunk) : Shape :=
  match chunks.getLast? with
  | none => .updateHeader movePath.isSome
  | some chunk =>
    if chunk.isEndOfFile then .chunkEof else if chunk.isBlank then .chunkBlank else .chunkOpen

namespace StreamingPatchParser

def shape (p : StreamingPatchParser) : Shape :=
  match p.mode with
  | .notStarted => .notStarted
  | .startedPatch => .startedPatch p.environmentId.isSome
  | .addFile => .addFile
  | .deleteFile => .deleteFile
  | .updateFile _ =>
    match p.hunks.getLast? with
    | some (.updateFile _ movePath chunks) => chunksShape movePath chunks
    | _ => .updateHeader false
  | .endedPatch => .endedPatch

def EofClosed (chunks : List UpdateFileChunk) : Prop :=
  lastEof chunks → lastBlank chunks = false

/-- What holds of a parser between two lines: the mode names the kind of the last hunk, and an update
hunk that the mode has left has a chunk with lines at its end. -/
structure WellFormed (p : StreamingPatchParser) : Prop where
  notStarted : p.mode = .notStarted → p.environmentId = none
  addFile : p.mode = .addFile → ∃ path contents, p.hunks.getLast? = some (.addFile path contents)
  updateFile : ∀ n, p.mode = .updateFile n →
    ∃ path movePath chunks, p.hunks.getLast? = some (.updateFile path movePath chunks)
  eofClosed : ∀ path movePath chunks, p.hunks.getLast? = some (.updateFile path movePath chunks) → EofClosed chunks
  closed : ∀ path movePath chunks, p.hunks.getLast? = some (.updateFile path movePath chunks) →
    (∀ n, p.mode ≠ .updateFile n) → chunks ≠ [] ∧ lastBlank chunks = false

end StreamingPatchParser

open StreamingPatchParser

/-! ## Content -/

def UpdateFileChunk.weight (chunk : UpdateFileChunk) : Nat :=
  (chunk.oldLines.map List.length).sum + (chunk.newLines.map List.length).sum

variable (chunks : List UpdateFileChunk)

def chunksWeight : Nat := (chunks.map (·.weight)).sum

def Hunk.weight : Hunk → Nat
  | .addFile _ contents => contents.length
  | .deleteFile _ => 0
  | .updateFile _ _ chunks => chunksWeight chunks

def hunksWeight (hunks : List Hunk) : Nat := (hunks.map Hunk.weight).sum

@[simp] theorem hunksWeight_concat (hunks : List Hunk) (hunk : Hunk) :
    hunksWeight (hunks ++ [hunk]) = hunksWeight hunks + hunk.weight := by
  simp [hunksWeight]

@[simp] theorem chunksWeight_concat (chunk : UpdateFileChunk) :
    chunksWeight (chunks ++ [chunk]) = chunksWeight chunks + chunk.weight := by
  simp [chunksWeight]

/-! ## Chunk lists by their last chunk -/

@[simp] theorem lastEof_nil : lastEof [] = false := rfl
@[simp] theorem lastBlank_nil : lastBlank [] = false := rfl

@[simp] theorem lastEof_concat (chunk : UpdateFileChunk) : lastEof (chunks ++ [chunk]) = chunk.isEndOfFile := by
  simp [lastEof]

@[simp] theorem lastBlank_concat (chunk : UpdateFileChunk) : lastBlank (chunks ++ [chunk]) = chunk.isBlank := by
  simp [lastBlank]

@[simp] theorem chunksShape_nil (movePath : Option Str) : chunksShape movePath [] = .updateHeader movePath.isSome := rfl

@[simp] theorem chunksShape_concat (movePath : Option Str) (chunks : List UpdateFileChunk)
    (chunk : UpdateFileChunk) : chunksShape movePath (chunks ++ [chunk]) =
      if chunk.isEndOfFile then .chunkEof else if chunk.isBlank then .chunkBlank else .chunkOpen := by
  simp [chunksShape]

@[simp] theorem modifyLast_nil (f : UpdateFileChunk → UpdateFileChunk) : modifyLast f [] = [] := rfl

@[simp] theorem modifyLast_concat (f : UpdateFileChunk → UpdateFileChunk)
    (chunks : List UpdateFileChunk) (chunk : UpdateFileChunk) :
    modifyLast f (chunks ++ [chunk]) = chunks ++ [f chunk] := by
  simp [modifyLast]

@[simp] theorem pushLines_nil (oldLines newLines : List Str) :
    pushLines oldLines newLines [] = [⟨none, oldLines, newLines, false⟩] := by
  simp [pushLines, modifyLast]

@[simp] theorem pushLines_concat (oldLines newLines : List Str) (chunks : List UpdateFileChunk)
    (chunk : UpdateFileChunk) : pushLines oldLines newLines (chunks ++ [chunk]) =
      chunks ++ [{ chunk with oldLines := chunk.oldLines ++ oldLines, newLines := chunk.newLines ++ newLines }] := by
  simp [pushLines]

/-! ## Headers -/

variable {trimmed : Str}

theorem head_of_stripPrefix {c : Char} {marker u : Str} (h : (stripPrefix (c :: marker) u).isSome) :
    u.head? = some c := by
  obtain ⟨t, ht⟩ := isSome_iff_exists.mp h
  rw [stripPrefix_eq_some.mp ht]
  rfl

theorem Shape.ofHeader_head {s : Shape} (h : ofHeader trimmed = some s) : trimmed.head? = some '*' := by
  unfold ofHeader at h
  split at h
  next he => rw [he]; rfl
  split at h
  next hs => exact head_of_stripPrefix hs
  split at h
  next hs => exact head_of_stripPrefix hs
  split at h
  next hs => exact head_of_stripPrefix hs
  cases h

def Complete (hunks : List Hunk) : Prop :=
  ∀ path movePath chunks, hunks.getLast? = some (.updateFile path movePath chunks) →
    chunks ≠ [] ∧ lastBlank chunks = false

theorem complete_nil : Complete [] := by
  intro path movePath chunks h
  simp at h

variable {p : StreamingPatchParser}

theorem ensureUpdateHunkIsNotEmpty_ok (h : Complete p.hunks) (line : Str) :
    ensureUpdateHunkIsNotEmpty p line = .ok () := by
  unfold ensureUpdateHunkIsNotEmpty
  split
  next path movePath chunks hlast =>
    obtain ⟨hne, hblank⟩ := h _ _ _ hlast
    split
    · contradiction
    · rw [hblank]; rfl
  · rfl

theorem complete_of_closable (hp : p.WellFormed) (hc : p.shape.closable) : Complete p.hunks := by
  intro path movePath chunks hlast
  by_cases hmode : ∃ n, p.mode = .updateFile n
  · obtain ⟨n, hn⟩ := hmode
    have hshape : p.shape = chunksShape movePath chunks := by simp [shape, hn, hlast]
    rw [hshape] at hc
    rcases eq_nil_or_concat' chunks with rfl | ⟨cs, chunk, rfl⟩
    · cases hc
    · have heof := hp.eofClosed _ _ _ hlast
      unfold EofClosed at heof
      rw [lastEof_concat, lastBlank_concat] at heof
      refine ⟨by simp, ?_⟩
      rw [lastBlank_concat]
      by_cases he : chunk.isEndOfFile
      · exact heof he
      · by_contra hb
        simp [he, Bool.not_eq_false _ ▸ hb, closable] at hc
  · exact hp.closed _ _ _ hlast (fun n hn => hmode ⟨n, hn⟩)

theorem ensureUpdateHunkIsNotEmpty_error (hp : p.WellFormed) (hc : p.shape.closable = false) (line : Str) :
    ∃ e, ensureUpdateHunkIsNotEmpty p line = .error e := by
  -- only an update hunk that is still open is not closable
  obtain ⟨n, hn⟩ : ∃ n, p.mode = .updateFile n := by
    cases hmode : p.mode with
    | updateFile n => exact ⟨n, rfl⟩
    | _ => simp [shape, hmode, closable] at hc
  obtain ⟨path, movePath, chunks, hlast⟩ := hp.updateFile n hn
  have hshape : p.shape = chunksShape movePath chunks := by simp [shape, hn, hlast]
  unfold ensureUpdateHunkIsNotEmpty
  rw [hlast, hn]
  rcases eq_nil_or_concat' chunks with rfl | ⟨cs, chunk, rfl⟩
  · exact ⟨_, rfl⟩
  · have hblank : chunk.isBlank := by
      rw [hshape, chunksShape_concat] at hc
      by_contra hb
      by_cases he : chunk.isEndOfFile <;> simp [he, hb, closable] at hc
    dsimp only
    split
    · rename_i h _; simp at h
    · rw [lastBlank_concat, if_pos hblank]
      split <;> exact ⟨_, rfl⟩

/-- The parser `q` is well formed, is at place `s` and carries `w` characters of content. -/
structure At (s : Shape) (w : Nat) (q : StreamingPatchParser) : Prop where
  wellFormed : q.WellFormed
  shape : q.shape = s
  weight : hunksWeight q.hunks = w

theorem At.endPatch (hp : p.WellFormed) (hc : p.shape.closable) :
    At .endedPatch (hunksWeight p.hunks) { p with mode := .endedPatch } where
  wellFormed :=
    { notStarted := nofun
      addFile := nofun
      updateFile := nofun
      eofClosed := hp.eofClosed
      closed := fun _ _ _ hlast _ => complete_of_closable hp hc _ _ _ hlast }
  shape := rfl
  weight := rfl

inductive Opens : Hunk → StreamingParserMode → Shape → Prop where
  | add (path : Str) : Opens (.addFile path []) .addFile .addFile
  | delete (path : Str) : Opens (.deleteFile path) .deleteFile .deleteFile
  | update (path : Str) (n : Nat) : Opens (.updateFile path none []) (.updateFile n) (.updateHeader false)

theorem At.openHunk (p : StreamingPatchParser) {hunk : Hunk} {mode : StreamingParserMode} {s : Shape}
    (h : Opens hunk mode s) : At s (hunksWeight p.hunks) { p with hunks := p.hunks ++ [hunk], mode := mode } where
  wellFormed :=
    { notStarted := by cases h <;> exact nofun
      addFile := by cases h <;> simp
      updateFile := by cases h <;> simp
      eofClosed := by cases h <;> simp +contextual [EofClosed]
      closed := by cases h <;> simp }
  shape := by cases h <;> simp [StreamingPatchParser.shape]
  weight := by cases h <;> simp [Hunk.weight, chunksWeight]

/-- A header is accepted after a hunk that may be closed, and rejected after an unfinished update. -/
theorem ensureUpdateHunkIsNotEmpty_then {q : StreamingPatchParser} (hp : p.WellFormed) (trimmed : Str) {s : Shape}
    {weight : Nat} (hq : p.shape.closable → At s weight q) :
    (p.shape.closable → ∃ q', (do
      ensureUpdateHunkIsNotEmpty p trimmed
      return some q : Except ParseError (Option StreamingPatchParser)) = .ok (some q') ∧ At s weight q') ∧
    (p.shape.closable = false → ∃ e, (do
      ensureUpdateHunkIsNotEmpty p trimmed
      return some q : Except ParseError (Option StreamingPatchParser)) = .error e) := by
  constructor
  · intro hc
    rw [ensureUpdateHunkIsNotEmpty_ok (complete_of_closable hp hc) trimmed]
    exact ⟨q, rfl, hq hc⟩
  · intro hc
    obtain ⟨e, he⟩ := ensureUpdateHunkIsNotEmpty_error hp hc trimmed
    rw [he]
    exact ⟨e, rfl⟩

/-- A header line moves the parser as `Shape.ofHeader` says. -/
theorem handleHunkHeadersAndEndPatch_refines (hp : p.WellFormed) (henv : environmentIdOf p trimmed = none) :
    match ofHeader trimmed with
    | none => handleHunkHeadersAndEndPatch p trimmed = .ok none
    | some s =>
      (p.shape.closable → ∃ q, handleHunkHeadersAndEndPatch p trimmed = .ok (some q) ∧ At s (hunksWeight p.hunks) q) ∧
      (p.shape.closable = false → ∃ e, handleHunkHeadersAndEndPatch p trimmed = .error e) := by
  unfold handleHunkHeadersAndEndPatch ofHeader openHunk
  rw [henv]
  by_cases hend : trimmed = endPatchMarker
  · simp only [if_pos hend]
    exact ensureUpdateHunkIsNotEmpty_then hp trimmed fun hc => At.endPatch hp hc
  · simp only [if_neg hend]
    cases stripPrefix addFileMarker trimmed with
    | some path => exact ensureUpdateHunkIsNotEmpty_then hp trimmed fun _ => At.openHunk p (.add path)
    | none =>
      cases stripPrefix deleteFileMarker trimmed with
      | some path => exact ensureUpdateHunkIsNotEmpty_then hp trimmed fun _ => At.openHunk p (.delete path)
      | none =>
        cases stripPrefix updateFileMarker trimmed with
        | some path =>
          exact ensureUpdateHunkIsNotEmpty_then hp trimmed fun _ => At.openHunk p (.update path p.lineNumber)
        | none => rfl

/-! ## Lines of an update hunk -/

variable {movePath : Option Str} {chunks : List UpdateFileChunk}

theorem chunksShape_eq_eof : chunksShape movePath chunks = .chunkEof ↔ lastEof chunks := by
  rcases eq_nil_or_concat' chunks with rfl | ⟨cs, chunk, rfl⟩
  · simp
  · cases he : chunk.isEndOfFile <;> cases hb : chunk.isBlank <;> simp [hb]

/-- The other places of an update hunk, where only chunks with lines are closed. -/
theorem chunksShape_eq (movePath : Option Str) (heof : EofClosed chunks) :
    (chunksShape movePath chunks = .chunkBlank ↔ lastBlank chunks) ∧
    (∀ b, chunksShape movePath chunks = .updateHeader b ↔ chunks = [] ∧ movePath.isSome = b) ∧
    (chunksShape movePath chunks = .chunkOpen ↔ chunks ≠ [] ∧ lastEof chunks = false ∧ lastBlank chunks = false) := by
  rcases eq_nil_or_concat' chunks with rfl | ⟨cs, chunk, rfl⟩
  · simp
  · rw [EofClosed, lastEof_concat, lastBlank_concat] at heof
    cases he : chunk.isEndOfFile <;> cases hb : chunk.isBlank <;> simp_all

theorem chunksShape_cases (movePath : Option Str) (chunks : List UpdateFileChunk) :
    (∃ b, chunksShape movePath chunks = .updateHeader b) ∨
      chunksShape movePath chunks ∈ [.chunkEof, .chunkBlank, .chunkOpen] := by
  rcases eq_nil_or_concat' chunks with rfl | ⟨cs, chunk, rfl⟩
  · exact .inl ⟨_, rfl⟩
  · cases he : chunk.isEndOfFile <;> cases hb : chunk.isBlank <;> simp [he]

/-- Lines pushed into a chunk that is not closed leave it open and add their characters. -/
theorem pushLines_spec (movePath : Option Str) (hopen : lastEof chunks = false) (oldLines newLines : List Str)
    (hne : oldLines ≠ [] ∨ newLines ≠ []) :
    chunksShape movePath (pushLines oldLines newLines chunks) = .chunkOpen ∧
    EofClosed (pushLines oldLines newLines chunks) ∧
    chunksWeight (pushLines oldLines newLines chunks) =
      chunksWeight chunks + ((oldLines.map length).sum + (newLines.map length).sum) := by
  have hblank : ∀ a b : List Str, ((a ++ oldLines).isEmpty && (b ++ newLines).isEmpty) = false := by
    intro a b
    rcases hne with h | h <;> simp [h]
  rcases eq_nil_or_concat' chunks with rfl | ⟨cs, chunk, rfl⟩
  · simp_all [chunksShape, isBlank, EofClosed, lastEof, chunksWeight, weight]
  · rw [lastEof_concat] at hopen
    simp only [pushLines_concat, chunksShape_concat, EofClosed, lastEof_concat, lastBlank_concat,
      chunksWeight_concat, weight, isBlank, hopen, hblank]
    refine ⟨by simp, by simp, ?_⟩
    simp only [map_append, sum_append]
    omega

theorem processBodyLine_refines (n : Nat) (movePath : Option Str) (hopen : lastEof chunks = false) (line : Str) :
    match processBodyLine n chunks line with
    | .ok chunks' => isBody line ∧ chunksShape movePath chunks' = .chunkOpen ∧
        EofClosed chunks' ∧ chunksWeight chunks' = chunksWeight chunks + bodyGain line
    | .error _ => isBody line = false := by
  unfold processBodyLine
  cases line with
  | nil =>
    obtain ⟨hshape, heof, hw⟩ := pushLines_spec movePath hopen [[]] [[]] (by simp)
    exact ⟨rfl, hshape, heof, hw⟩
  | cons c rest =>
    dsimp only
    by_cases hsp : c = ' '
    · obtain ⟨hshape, heof, hw⟩ := pushLines_spec movePath hopen [rest] [rest] (by simp)
      rw [if_pos hsp]
      refine ⟨by simp [isBody, hsp], hshape, heof, ?_⟩
      rw [hw]
      simp [bodyGain, hsp]
      omega
    · by_cases hadd : c = '+'
      · obtain ⟨hshape, heof, hw⟩ := pushLines_spec movePath hopen [] [rest] (by simp)
        rw [if_neg hsp, if_pos hadd]
        exact ⟨by simp [isBody, hadd], hshape, heof, by rw [hw]; simp [bodyGain, hsp]⟩
      · by_cases hdel : c = '-'
        · obtain ⟨hshape, heof, hw⟩ := pushLines_spec movePath hopen [rest] [] (by simp)
          rw [if_neg hsp, if_neg hadd, if_pos hdel]
          exact ⟨by simp [isBody, hdel], hshape, heof, by rw [hw]; simp [bodyGain, hsp]⟩
        · rw [if_neg hsp, if_neg hadd, if_neg hdel]
          have hbody : isBody (c :: rest) = false := by simp [isBody, hsp, hadd, hdel]
          split <;> rename_i h <;> split at h <;> first | exact hbody | cases h

variable {line : Str} {c : Char}

theorem head?_of_trimEnd (h : (trimEnd line).head? = some c) : line.head? = some c := by
  obtain ⟨rest, hrest⟩ := rdropWhile_prefix isWhitespace line
  rw [← hrest, head?_append, ← trimEnd, h]
  rfl

/-- A line that keeps its first character when trimmed at the end, and no such character of a chunk
line, is no chunk line. -/
theorem isBody_eq_false (h : (trimEnd line).head? = some c) (hc : (c == ' ' || c == '+' || c == '-') = false) :
    isBody line = false := by
  obtain ⟨rest, rfl⟩ := head?_eq_some_iff.mp (head?_of_trimEnd h)
  exact hc

theorem isContextMarker_head {updateLine : Str} (h : isContextMarker updateLine) : updateLine.head? = some '@' := by
  rcases Bool.or_eq_true _ _ ▸ h with h | h
  · rw [of_decide_eq_true h]; rfl
  · exact head_of_stripPrefix h

theorem not_isContextMarker {u : Str} (h : ¬ isContextMarker u) :
    u ≠ emptyChangeContextMarker ∧ stripPrefix changeContextMarker u = none := by
  simpa [isContextMarker] using h

theorem openChunk_spec (movePath changeContext : Option Str) (chunks : List UpdateFileChunk) :
    chunksShape movePath (chunks ++ [⟨changeContext, [], [], false⟩]) = .chunkBlank ∧
    EofClosed (chunks ++ [⟨changeContext, [], [], false⟩]) ∧
    chunksWeight (chunks ++ [⟨changeContext, [], [], false⟩]) = chunksWeight chunks := by
  simp [isBlank, EofClosed, weight]

theorem stripPrefix_of_head {d : Char} (h : c ≠ d) {marker u : Str} (hu : u.head? = some d) :
    stripPrefix (c :: marker) u = none := by
  cases u with
  | nil => cases hu
  | cons x u =>
    obtain rfl : x = d := some.inj hu
    exact stripPrefix_cons_ne h marker u

/-- What a marker line may do: it moves an update hunk as `Shape.updateStep` says and adds no content; a line
that is no marker is left to its first character. -/
def MarkerRefines (movePath : Option Str) (chunks : List UpdateFileChunk) (line : Str) :
    Option (Except ParseError (Option Str × List UpdateFileChunk)) → Prop
  | some (.ok (movePath', chunks')) =>
    (chunksShape movePath chunks).updateStep line = some (chunksShape movePath' chunks') ∧
      EofClosed chunks' ∧ chunksWeight chunks' = chunksWeight chunks ∧
      (lastEof chunks ∨ Shape.isBody line = false)
  | some (.error _) => (chunksShape movePath chunks).updateStep line = none
  | none => lastEof chunks = false ∧ (chunksShape movePath chunks).updateStep line =
      if Shape.isBody line then some .chunkOpen else none

section

variable (n : Nat) (movePath : Option Str) (heof : EofClosed chunks) (line : Str)

include heof

theorem processMarkerLine_context (hctx : isContextMarker (trimEnd line)) :
    MarkerRefines movePath chunks line (processMarkerLine n movePath chunks line) := by
  have hhead := isContextMarker_head hctx
  have hbody : isBody line = false := isBody_eq_false hhead (by decide)
  unfold processMarkerLine MarkerRefines updateStep
  obtain ⟨hblank, hheader, hopen⟩ := chunksShape_eq movePath heof
  simp only [chunksShape_eq_eof, hblank, hheader, hopen]
  generalize trimEnd line = u at hctx hhead ⊢
  have hmove : stripPrefix moveToMarker u = none := stripPrefix_of_head (by decide) hhead
  have hu : u.isEmpty = false := by
    cases u with
    | nil => cases hhead
    | cons => rfl
  simp only [hctx, hmove, hu, ite_self]
  by_cases hb : lastBlank chunks
  · simp [hb]
  · simp only [hb]
    by_cases hempty : u = emptyChangeContextMarker
    · obtain ⟨hshape, hclosed, hw⟩ := openChunk_spec movePath none chunks
      simp [hempty, hshape, hclosed, hw, hbody]
    · cases hpre : stripPrefix changeContextMarker u with
      | none => simp [isContextMarker, hempty, hpre] at hctx
      | some ctx =>
        obtain ⟨hshape, hclosed, hw⟩ := openChunk_spec movePath (some ctx) chunks
        simp [hempty, hshape, hclosed, hw, hbody]

/-- The other lines: blank ones after an end-of-file marker, the move and the end-of-file marker. -/
theorem processMarkerLine_other (hctx : ¬ isContextMarker (trimEnd line)) :
    MarkerRefines movePath chunks line (processMarkerLine n movePath chunks line) := by
  have hbody : (trimEnd line).head? = some '*' → isBody line = false :=
    fun h => isBody_eq_false h (by decide)
  unfold processMarkerLine MarkerRefines updateStep
  obtain ⟨hblank, hheader, hopen⟩ := chunksShape_eq movePath heof
  simp only [chunksShape_eq_eof, hblank, hheader, hopen]
  generalize trimEnd line = u at hbody hctx ⊢
  obtain ⟨hempty, hpre⟩ := not_isContextMarker hctx
  by_cases he : lastEof chunks
  · -- after an end-of-file marker only blank lines and `@@` are accepted
    by_cases hu : u.isEmpty
    · simp [he, hu, heof, chunksShape_eq_eof.mpr he]
    · simp [he, hu, hctx]
  · simp only [he, hctx, hempty, hpre]
    by_cases hmoves : chunks = [] ∧ movePath = none
    · obtain ⟨rfl, rfl⟩ := hmoves
      cases hmove : stripPrefix moveToMarker u with
      | some path =>
        have hhead : u.head? = some '*' := head_of_stripPrefix (isSome_of_eq_some hmove)
        simp [EofClosed, hbody hhead]
      | none =>
        by_cases hm : u = eofMarker
        · have hhead : u.head? = some '*' := by rw [hm]; rfl
          simp [hm, EofClosed, hbody hhead]
        · simp [hm]
    · have hmoves' : (chunks.isEmpty && movePath.isNone) = false := by
        rw [Bool.eq_false_iff]
        intro h
        exact hmoves (by simpa using h)
      have hmoves'' : ¬ (chunks = [] ∧ movePath.isSome = false) := by simpa using hmoves
      simp only [hmoves', hmoves'']
      by_cases hm : u = eofMarker
      · have hhead : u.head? = some '*' := by rw [hm]; rfl
        have hline := hbody hhead
        rcases eq_nil_or_concat' chunks with rfl | ⟨cs, chunk, rfl⟩
        · simp [hm, EofClosed, hline]
        · by_cases hb : chunk.isBlank
          · simp [hm, hb]
          · simp [hm, hb, EofClosed, hline, weight]
            simpa [isBlank] using hb
      · simp [hm]

theorem processMarkerLine_refines : MarkerRefines movePath chunks line (processMarkerLine n movePath chunks line) := by
  by_cases hctx : isContextMarker (trimEnd line)
  · exact processMarkerLine_context n movePath heof line hctx
  · exact processMarkerLine_other n movePath heof line hctx

end

theorem chunksShape_isContent (movePath : Option Str) (chunks : List UpdateFileChunk) (line : Str) :
    (chunksShape movePath chunks).isContent line = (!lastEof chunks && isBody line) := by
  rcases eq_nil_or_concat' chunks with rfl | ⟨cs, chunk, rfl⟩
  · rfl
  · cases he : chunk.isEndOfFile <;> cases hb : chunk.isBlank <;> simp [isContent, he, hb]

theorem chunksShape_gain (movePath : Option Str) (chunks : List UpdateFileChunk) (line : Str) :
    (chunksShape movePath chunks).gain line =
      if lastEof chunks = false ∧ isBody line then bodyGain line else 0 := by
  have hadd : chunksShape movePath chunks ≠ .addFile := by
    intro h
    simpa [h] using chunksShape_cases movePath chunks
  simp [gain, chunksShape_isContent, hadd]

/-- A line of an update hunk that is no header moves the hunk as `Shape.updateStep` says. -/
theorem processUpdateLine_refines (n : Nat) (movePath : Option Str) (heof : EofClosed chunks) (line : Str) :
    match processUpdateLine n movePath chunks line with
    | .ok (movePath', chunks') =>
      (chunksShape movePath chunks).updateStep line = some (chunksShape movePath' chunks') ∧
      EofClosed chunks' ∧
      chunksWeight chunks' = chunksWeight chunks + (chunksShape movePath chunks).gain line
    | .error _ => (chunksShape movePath chunks).updateStep line = none := by
  have hgain := chunksShape_gain movePath chunks line
  have hmarker := processMarkerLine_refines n movePath heof line
  unfold processUpdateLine
  cases hm : processMarkerLine n movePath chunks line with
  | some r =>
    rw [hm] at hmarker
    cases r with
    | error e => exact hmarker
    | ok r =>
      obtain ⟨hstep, hclosed, hw, hno⟩ := hmarker
      refine ⟨hstep, hclosed, ?_⟩
      rw [hw, hgain, if_neg]
      · rfl
      · rintro ⟨h1, h2⟩
        rcases hno with h | h
        · rw [h] at h1; cases h1
        · rw [h] at h2; cases h2
  | none =>
    rw [hm] at hmarker
    obtain ⟨hopen, hstep⟩ := hmarker
    have hb := processBodyLine_refines n movePath hopen line
    cases hr : processBodyLine n chunks line with
    | error e =>
      rw [hr] at hb
      rw [hb] at hstep
      exact hstep
    | ok chunks' =>
      rw [hr] at hb
      obtain ⟨hbody, hshape, hclosed, hw⟩ := hb
      refine ⟨?_, hclosed, ?_⟩
      · rw [hstep, if_pos hbody, hshape]
      · rw [hw, hgain, if_pos ⟨hopen, hbody⟩]

/-! ## Lines -/

/-- The outcome of a line from place `s` with `w` characters of content: accepted with a step of the
shape machine, or rejected where there is none. -/
def Refines (s : Shape) (w : Nat) (line : Str) (r : Except ParseError StreamingPatchParser) : Prop :=
  match r with
  | .ok q => ∃ t, s.step line = some t ∧ At t (w + s.gain line) q
  | .error _ => s.step line = none

theorem trim_head (hc : isWhitespace c = false) (h : (stripPrefix [c] line).isSome) : (trim line).head? = some c := by
  obtain ⟨rest, hrest⟩ := isSome_iff_exists.mp h
  rw [stripPrefix_eq_some.mp hrest]
  show (trim (c :: rest)).head? = some c
  rw [trim_of_noLeading (by simp [NoLeading, hc]), trimEnd_cons hc]
  rfl

/-- A mode in which a line is a header or an error, or something that `rest` decides. -/
theorem header_refines (hp : p.WellFormed) (henv : environmentIdOf p trimmed = none)
    {rest : Except ParseError StreamingPatchParser}
    (hstep : ∀ t, ofHeader trimmed = some t →
      p.shape.step line = (if p.shape.closable then some t else none) ∧ p.shape.gain line = 0)
    (hrest : ofHeader trimmed = none → Refines p.shape (hunksWeight p.hunks) line rest) :
    Refines p.shape (hunksWeight p.hunks) line (do
      match ← handleHunkHeadersAndEndPatch p trimmed with
      | some p' => return p'
      | none => rest) := by
  have hh := handleHunkHeadersAndEndPatch_refines hp henv
  cases ho : ofHeader trimmed with
  | none =>
    rw [ho] at hh
    rw [show handleHunkHeadersAndEndPatch p trimmed = .ok none from hh]
    exact hrest ho
  | some t =>
    rw [ho] at hh
    obtain ⟨hst, hg⟩ := hstep t ho
    cases hc : p.shape.closable with
    | true =>
      obtain ⟨q, hq, hat⟩ := hh.1 hc
      rw [hc] at hst
      rw [hq]
      exact ⟨t, hst, by rw [hg]; exact hat⟩
    | false =>
      obtain ⟨e, he⟩ := hh.2 hc
      rw [hc] at hst
      rw [he]
      exact hst

theorem processLine_refines_started (hp : p.WellFormed) (hmode : p.mode = .startedPatch) (line : Str) :
    Refines p.shape (hunksWeight p.hunks) line (processLine p line) := by
  have hshape : p.shape = .startedPatch p.environmentId.isSome := by simp [shape, hmode]
  unfold processLine
  simp only [hmode]
  cases hid : stripPrefix environmentIdMarker (trim line) with
  | none =>
    have henv : environmentIdOf p (trim line) = none := by simp [environmentIdOf, hid]
    refine header_refines hp henv (fun t ht => ⟨?_, ?_⟩) (fun ht => ?_)
    · rw [hshape]; simp [step, closable, hid, ht]
    · rw [hshape]; rfl
    · show p.shape.step line = none
      rw [hshape]; simp [step, hid, ht]
  | some id =>
    have henv : environmentIdOf p (trim line) = some id := by simp [environmentIdOf, hmode, hid]
    unfold handleHunkHeadersAndEndPatch
    rw [henv, hshape]
    dsimp only
    by_cases hsome : p.environmentId.isSome
    · rw [if_pos hsome]
      show step _ line = none
      simp [step, hid, hsome]
    · by_cases hempty : (trim id).isEmpty
      · rw [if_neg hsome, if_pos hempty]
        show step _ line = none
        simp [step, hid, hempty]
      · rw [if_neg hsome, if_neg hempty]
        refine ⟨.startedPatch true, by simp [step, hid, hsome, hempty], ?_, ?_, rfl⟩
        · exact ⟨by simp [hmode], hp.addFile, hp.updateFile, hp.eofClosed, hp.closed⟩
        · simp [shape, hmode]

theorem processLine_refines_addFile (hp : p.WellFormed) (hmode : p.mode = .addFile) (line : Str) :
    Refines p.shape (hunksWeight p.hunks) line (processLine p line) := by
  have hshape : p.shape = .addFile := by simp [shape, hmode]
  have henv : environmentIdOf p (trim line) = none := by simp [environmentIdOf, hmode]
  unfold processLine
  simp only [hmode]
  refine header_refines hp henv (fun t ht => ⟨?_, ?_⟩) (fun ht => ?_)
  · rw [hshape]; simp [step, closable, ht]
  · -- a header is no line of contents
    have hplus : (stripPrefix ['+'] line).isSome = false := by
      by_contra h
      have h1 := trim_head (by decide) (Bool.not_eq_false _ ▸ h)
      rw [ofHeader_head ht] at h1
      cases h1
    rw [hshape]; simp [gain, isContent, hplus]
  · unfold processAddLine
    obtain ⟨path, contents, hlast⟩ := hp.addFile hmode
    rw [hlast, hshape]
    cases hplus : stripPrefix ['+'] line with
    | none =>
      show step _ line = none
      simp [step, ht, hplus]
    | some lineToAdd =>
      refine ⟨.addFile, by simp [step, ht, hplus], ?_, by simp [shape, hmode], ?_⟩
      · exact ⟨by simp [hmode], fun _ => ⟨path, _, getLast?_concat⟩, by simp [hmode], by simp, by simp⟩
      · obtain ⟨hs, hhunks⟩ := getLast?_eq_some_iff.mp hlast
        have hgain : Shape.addFile.gain line = lineToAdd.length + 1 := by
          simp only [gain, isContent, hplus]
          simp [stripPrefix_eq_some.mp hplus]
        rw [hgain, hhunks]
        simp [Hunk.weight]
        omega

theorem chunksShape_step (movePath : Option Str) (chunks : List UpdateFileChunk) (line : Str) :
    (chunksShape movePath chunks).step line =
      match ofHeader (trimEnd line) with
      | some next => if (chunksShape movePath chunks).closable then some next else none
      | none => (chunksShape movePath chunks).updateStep line := by
  rcases chunksShape_cases movePath chunks with ⟨b, h⟩ | h
  · rw [h]; rfl
  · simp only [mem_cons, not_mem_nil, or_false] at h
    rcases h with h | h | h <;> rw [h] <;> rfl

theorem processLine_refines_updateFile (hp : p.WellFormed) {n : Nat} (hmode : p.mode = .updateFile n) (line : Str) :
    Refines p.shape (hunksWeight p.hunks) line (processLine p line) := by
  obtain ⟨path, movePath, chunks, hlast⟩ := hp.updateFile n hmode
  have hshape : p.shape = chunksShape movePath chunks := by simp [shape, hmode, hlast]
  have henv : environmentIdOf p (trimEnd line) = none := by simp [environmentIdOf, hmode]
  have hstep := chunksShape_step movePath chunks line
  unfold processLine
  simp only [hmode]
  refine header_refines hp henv (fun t ht => ⟨?_, ?_⟩) (fun ht => ?_)
  · rw [hshape, hstep, ht]
  · have hbody := isBody_eq_false (ofHeader_head ht) (by decide)
    rw [hshape, chunksShape_gain, hbody]
    simp
  · rw [hlast, hshape]
    rw [ht] at hstep
    have hu := processUpdateLine_refines p.lineNumber movePath (hp.eofClosed _ _ _ hlast) line
    dsimp only
    cases hr : processUpdateLine p.lineNumber movePath chunks line with
    | error e =>
      rw [hr] at hu
      exact hstep.trans hu
    | ok r =>
      rw [hr] at hu
      obtain ⟨hst, hclosed, hw⟩ := hu
      refine ⟨_, hstep.trans hst, ?_, by simp [shape], ?_⟩
      · refine ⟨nofun, nofun, fun _ _ => ⟨path, _, _, getLast?_concat⟩,
          fun _ _ chunks h => ?_, fun _ _ _ _ h => absurd rfl (h n)⟩
        obtain ⟨-, -, rfl⟩ : path = _ ∧ r.1 = _ ∧ r.2 = chunks := by simpa using h
        exact hclosed
      · obtain ⟨hs, hhunks⟩ := getLast?_eq_some_iff.mp hlast
        rw [hhunks]
        simp [Hunk.weight, hw]
        omega

theorem processLine_refines (hp : p.WellFormed) (line : Str) :
    Refines p.shape (hunksWeight p.hunks) line (processLine p line) := by
  cases hmode : p.mode with
  | notStarted =>
    have hshape : p.shape = .notStarted := by simp [shape, hmode]
    have hid := hp.notStarted hmode
    unfold processLine
    simp only [hmode, hshape]
    split
    next hbegin =>
      refine ⟨.startedPatch false, if_pos hbegin, ?_, by simp [shape, hid], rfl⟩
      exact ⟨nofun, nofun, nofun, hp.eofClosed,
        fun _ _ _ h _ => hp.closed _ _ _ h (by rw [hmode]; exact nofun)⟩
    next hbegin =>
      exact if_neg hbegin
  | startedPatch => exact processLine_refines_started hp hmode line
  | deleteFile =>
    have hshape : p.shape = .deleteFile := by simp [shape, hmode]
    have henv : environmentIdOf p (trim line) = none := by simp [environmentIdOf, hmode]
    unfold processLine
    simp only [hmode]
    refine header_refines hp henv (fun t ht => ⟨?_, ?_⟩) (fun ht => ?_)
    · rw [hshape]; exact ht
    · rw [hshape]; rfl
    · rw [hshape]; exact ht
  | addFile => exact processLine_refines_addFile hp hmode line
  | updateFile n => exact processLine_refines_updateFile hp hmode line
  | endedPatch =>
    have hshape : p.shape = .endedPatch := by simp [shape, hmode]
    unfold processLine
    simp only [hmode, hshape]
    split
    next hblank =>
      exact ⟨.endedPatch, if_pos hblank, hp, hshape, rfl⟩
    next hblank =>
      exact if_neg hblank

/-! ## Whole patches -/

theorem StreamingPatchParser.WellFormed.frame (hp : p.WellFormed) (lineBuffer : Str) (lineNumber : Nat) :
    ({ p with lineBuffer := lineBuffer, lineNumber := lineNumber } : StreamingPatchParser).WellFormed :=
  ⟨hp.notStarted, hp.addFile, hp.updateFile, hp.eofClosed, hp.closed⟩

theorem wellFormed_init : ({} : StreamingPatchParser).WellFormed :=
  ⟨fun _ => rfl, nofun, nofun, nofun, nofun⟩

theorem lineStep_refines (hp : p.WellFormed) (line : Str) :
    Refines p.shape (hunksWeight p.hunks) line (lineStep p line) :=
  processLine_refines (hp.frame p.lineBuffer (p.lineNumber + 1)) line

theorem lineSteps_refines (lines : List Str) (hp : p.WellFormed) :
    match lines.foldlM lineStep p with
    | .ok q => ∃ t, lines.foldlM step p.shape = some t ∧ At t (hunksWeight p.hunks + p.shape.totalGain lines) q
    | .error _ => lines.foldlM step p.shape = none := by
  induction lines generalizing p with
  | nil => exact ⟨p.shape, rfl, hp, rfl, rfl⟩
  | cons line lines ih =>
    have hstep := lineStep_refines hp line
    rw [foldlM_cons, foldlM_cons]
    cases hr : lineStep p line with
    | error e =>
      rw [hr] at hstep
      rw [show p.shape.step line = none from hstep]
      rfl
    | ok q =>
      rw [hr] at hstep
      obtain ⟨t, ht, hq, rfl, hw⟩ := hstep
      have ih := ih hq
      simp only [totalGain, ht, bind, Except.bind, Option.bind]
      rw [hw] at ih
      simpa only [Nat.add_assoc] using ih

theorem shape_eq_endedPatch : p.shape = .endedPatch ↔ p.mode = .endedPatch := by
  cases hmode : p.mode with
  | updateFile n =>
    refine iff_of_false (fun h => ?_) (by simp)
    simp only [shape, hmode] at h
    split at h
    next path movePath chunks _ => simpa [h] using chunksShape_cases movePath chunks
    next => cases h
  | _ => simp [shape, hmode]

/-- `finish` accepts exactly the last lines after which the shape machine has ended. -/
theorem finish_refines (hp : p.WellFormed) :
    match finish p with
    | .ok q => p.shape.finish p.lineBuffer = some .endedPatch ∧
        hunksWeight q.hunks = hunksWeight p.hunks + p.shape.finishGain p.lineBuffer
    | .error _ => p.shape.finish p.lineBuffer ≠ some .endedPatch := by
  have hline : match finishLine p with
      | .ok q => ∃ t, p.shape.finish p.lineBuffer = some t ∧
          At t (hunksWeight p.hunks + p.shape.finishGain p.lineBuffer) q
      | .error _ => p.shape.finish p.lineBuffer = none := by
    unfold finishLine Shape.finish finishGain
    by_cases hempty : p.lineBuffer.isEmpty
    · simp only [hempty, if_true, Bool.true_or]
      exact ⟨p.shape, rfl, hp, rfl, rfl⟩
    · have hp' := hp.frame [] (p.lineNumber + 1)
      by_cases hend : trim p.lineBuffer = endPatchMarker
      · simp only [hempty, hend, Bool.false_eq_true, if_false, if_true]
        cases hc : p.shape.closable with
        | true =>
          rw [ensureUpdateHunkIsNotEmpty_ok (complete_of_closable hp' hc)]
          exact ⟨_, rfl, At.endPatch hp' hc⟩
        | false =>
          obtain ⟨e, he⟩ := ensureUpdateHunkIsNotEmpty_error hp' hc endPatchMarker
          rw [he]
          rfl
      · simp only [hempty, hend, Bool.false_eq_true, if_false, decide_false, Bool.or_self]
        exact processLine_refines hp' p.lineBuffer
  unfold finish
  cases hr : finishLine p with
  | error e =>
    rw [hr] at hline
    rw [show p.shape.finish p.lineBuffer = none from hline]
    exact nofun
  | ok q =>
    rw [hr] at hline
    obtain ⟨t, ht, hq, rfl, hw⟩ := hline
    simp only [bind, Except.bind]
    by_cases hended : q.mode = .endedPatch
    · rw [if_pos hended]
      exact ⟨by rw [ht, shape_eq_endedPatch.mpr hended], hw⟩
    · rw [if_neg hended]
      rw [ht]
      exact fun h => hended (shape_eq_endedPatch.mp (some.inj h))

end Dcode.ApplyPatch
