import Dcode.ApplyPatch.Grammar
import Dcode.ApplyPatch.Proofs.ParserProofs

/-!
# Proofs: parsing undoes rendering

The parser reads a rendered patch line by line. A header closes the hunk before it, which is complete
(`Between`); the lines inside a hunk start with a character that no header and no marker starts with,
so what they say does not matter.
-/

namespace Dcode.ApplyPatch

open Run List Str DiffLine Option
open Str (trim trimEnd stripPrefix stripCr joinLines NoLeading NoTrailing)

/-! ## Lines that are headers and lines that are not -/

theorem ofHeader_eq_none {trimmed : Str} (h : trimmed.head? ≠ some '*') : Shape.ofHeader trimmed = none := by
  cases ho : Shape.ofHeader trimmed with
  | none => rfl
  | some s => exact absurd (Shape.ofHeader_head ho) h

variable {p : StreamingPatchParser}

theorem handleHunkHeadersAndEndPatch_none {trimmed : Str} (henv : environmentIdOf p trimmed = none)
    (ho : Shape.ofHeader trimmed = none) :
    handleHunkHeadersAndEndPatch p trimmed = .ok none := by
  unfold Shape.ofHeader at ho
  unfold handleHunkHeadersAndEndPatch
  rw [henv]
  split at ho
  · cases ho
  next hend =>
    cases hadd : stripPrefix addFileMarker trimmed <;> rw [hadd] at ho
    · cases hdel : stripPrefix deleteFileMarker trimmed <;> rw [hdel] at ho
      · cases hupd : stripPrefix updateFileMarker trimmed <;> rw [hupd] at ho
        · simp [if_neg hend]
        · cases ho
      · cases ho
    · cases ho

structure Between (environmentId : Option Str) (hunks : List Hunk) (p : StreamingPatchParser) : Prop where
  lineBuffer : p.lineBuffer = []
  environmentId : p.environmentId = environmentId
  hunks : p.hunks = hunks
  complete : Complete p.hunks
  started : p.mode ≠ .notStarted
  notEnded : p.mode ≠ .endedPatch

/-- In every mode inside a patch a line without surrounding whitespace is looked up as a header. -/
theorem lineStep_header {q : StreamingPatchParser} (hs : p.mode ≠ .notStarted) (he : p.mode ≠ .endedPatch) {line : Str}
    (hl : NoLeading line) (ht : NoTrailing line)
    (h : handleHunkHeadersAndEndPatch { p with lineNumber := p.lineNumber + 1 } line = .ok (some q)) :
    lineStep p line = .ok q := by
  unfold lineStep processLine
  simp only [trim_eq_self hl ht, trimEnd_eq_self ht, h]
  cases hm : p.mode with
  | notStarted => exact absurd hm hs
  | endedPatch => exact absurd hm he
  | _ => rfl

theorem noLeading_append {c : Char} (hc : isWhitespace c = false) (marker text : Str) :
    NoLeading (c :: marker ++ text) := by
  intro d hd
  obtain rfl : c = d := some.inj hd
  exact hc

theorem noTrailing_append (marker : Str) {text : Str} (hne : text ≠ []) (h : NoTrailing text) :
    NoTrailing (marker ++ text) := by
  intro c hc
  rw [getLast?_append_of_ne_nil _ hne] at hc
  exact h c hc

/-- A line that starts with a hunk marker neither ends the patch nor gives an environment id. -/
theorem handleHunkHeadersAndEndPatch_marker (p : StreamingPatchParser) {marker : Str} (path : Str)
    (hend : ¬ marker <+: endPatchMarker) (henv : ¬ environmentIdMarker <+: marker)
    (henv' : ¬ marker <+: environmentIdMarker) :
    handleHunkHeadersAndEndPatch p (marker ++ path) =
      match stripPrefix addFileMarker (marker ++ path) with
      | some path' => openHunk p (marker ++ path) (.addFile path' []) .addFile
      | none =>
        match stripPrefix deleteFileMarker (marker ++ path) with
        | some path' => openHunk p (marker ++ path) (.deleteFile path') .deleteFile
        | none =>
          match stripPrefix updateFileMarker (marker ++ path) with
          | some path' =>
            openHunk p (marker ++ path) (.updateFile path' none []) (.updateFile p.lineNumber)
          | none => .ok none := by
  have hid : environmentIdOf p (marker ++ path) = none := by
    unfold environmentIdOf
    rw [stripPrefix_append_none henv henv', ite_self]
  have hne : marker ++ path ≠ endPatchMarker := fun h => hend ⟨path, h⟩
  rw [handleHunkHeadersAndEndPatch, hid]
  exact if_neg hne

/-- The parser behind the header line of a hunk. -/
def opened (p : StreamingPatchParser) (hunk : Hunk) (mode : StreamingParserMode) : StreamingPatchParser :=
  { p with lineNumber := p.lineNumber + 1, hunks := p.hunks ++ [hunk], mode := mode }

section Headers

variable {environmentId : Option Str} {hunks : List Hunk} (hp : Between environmentId hunks p) (path : HeaderText)

include hp

theorem Between.header {marker : Str} {hunk : Hunk} {mode : StreamingParserMode} (hl : NoLeading (marker ++ path.text))
    (h : handleHunkHeadersAndEndPatch { p with lineNumber := p.lineNumber + 1 } (marker ++ path.text) =
      openHunk { p with lineNumber := p.lineNumber + 1 } (marker ++ path.text) hunk mode) :
    lineStep p (marker ++ path.text) = .ok (opened p hunk mode) := by
  refine lineStep_header hp.started hp.notEnded hl (noTrailing_append _ path.nonempty path.noTrailing) ?_
  have hcomplete : Complete ({ p with lineNumber := p.lineNumber + 1 } : StreamingPatchParser).hunks :=
    hp.complete
  rw [h, openHunk, ensureUpdateHunkIsNotEmpty_ok hcomplete]
  rfl

theorem Between.addFile : lineStep p (addFileMarker ++ path.text) = .ok (opened p (.addFile path.text []) .addFile) :=
  hp.header path (noLeading_append rfl _ _)
    (handleHunkHeadersAndEndPatch_marker _ _ (by decide) (by decide) (by decide))

theorem Between.deleteFile :
    lineStep p (deleteFileMarker ++ path.text) = .ok (opened p (.deleteFile path.text) .deleteFile) :=
  hp.header path (noLeading_append rfl _ _)
    (handleHunkHeadersAndEndPatch_marker _ _ (by decide) (by decide) (by decide))

theorem Between.updateFile : lineStep p (updateFileMarker ++ path.text) =
    .ok (opened p (.updateFile path.text none []) (.updateFile (p.lineNumber + 1))) :=
  hp.header path (noLeading_append rfl _ _)
    (handleHunkHeadersAndEndPatch_marker _ _ (by decide) (by decide) (by decide))

end Headers

/-! ## Lines inside a hunk -/

structure InAddFile (environmentId : Option Str) (hunks : List Hunk) (path contents : Str)
    (p : StreamingPatchParser) : Prop where
  lineBuffer : p.lineBuffer = []
  environmentId : p.environmentId = environmentId
  hunks : p.hunks = hunks ++ [.addFile path contents]
  mode : p.mode = .addFile

structure InUpdateFile (environmentId : Option Str) (hunks : List Hunk) (path : Str)
    (movePath : Option Str) (chunks : List UpdateFileChunk) (p : StreamingPatchParser) : Prop where
  lineBuffer : p.lineBuffer = []
  environmentId : p.environmentId = environmentId
  hunks : p.hunks = hunks ++ [.updateFile path movePath chunks]
  mode : ∃ n, p.mode = .updateFile n

/-- The lines are accepted and lead to a parser of which `Q` holds. -/
def Leads (p : StreamingPatchParser) (lines : List Str) (Q : StreamingPatchParser → Prop) : Prop :=
  ∃ q, lines.foldlM lineStep p = .ok q ∧ Q q

section Lines

variable {environmentId : Option Str} {hunks : List Hunk} {path : Str} {movePath : Option Str}
  {Q R : StreamingPatchParser → Prop}

theorem Leads.append {lines more : List Str} (h : Leads p lines Q) (hmore : ∀ q, Q q → Leads q more R) :
    Leads p (lines ++ more) R := by
  obtain ⟨q, hq, hQ⟩ := h
  obtain ⟨r, hr, hR⟩ := hmore q hQ
  exact ⟨r, foldlM_append_eq_ok.mpr ⟨q, hq, hr⟩, hR⟩

theorem leads_singleton {line : Str} {q : StreamingPatchParser} (h : lineStep p line = .ok q) (hQ : Q q) :
    Leads p [line] Q :=
  ⟨q, foldlM_cons_eq_ok.mpr ⟨q, h, rfl⟩, hQ⟩

theorem InAddFile.line {contents : Str} (hp : InAddFile environmentId hunks path contents p) (line : Str) :
    Leads p ['+' :: line] (InAddFile environmentId hunks path (contents ++ (line ++ ['\n']))) := by
  have hhead : (trim ('+' :: line)).head? = some '+' := by
    rw [trim_of_noLeading (by simp [NoLeading, isWhitespace]), trimEnd_cons (by decide)]
    rfl
  obtain ⟨lineBuffer, mode, hs, id, lineNumber⟩ := p
  obtain ⟨hbuffer, hid, hhunks, hmode⟩ := hp
  subst hbuffer hid hhunks hmode
  refine @leads_singleton _ _ _
    ⟨[], .addFile, hunks ++ [.addFile path (contents ++ (line ++ ['\n']))], id, lineNumber + 1⟩ ?_ ⟨rfl, rfl, rfl, rfl⟩
  unfold lineStep processLine
  simp only
  rw [handleHunkHeadersAndEndPatch_none (by simp [environmentIdOf]) (ofHeader_eq_none (by rw [hhead]; decide))]
  simp [processAddLine, stripPrefix, isPrefixOf?, bind, Except.bind]

variable {chunks : List UpdateFileChunk} {line : Str}

theorem InUpdateFile.step {chunks' : List UpdateFileChunk} {movePath' : Option Str}
    (hp : InUpdateFile environmentId hunks path movePath chunks p) (hline : Shape.ofHeader (trimEnd line) = none)
    (h : ∀ n, processUpdateLine n movePath chunks line = .ok (movePath', chunks')) :
    Leads p [line] (InUpdateFile environmentId hunks path movePath' chunks') := by
  obtain ⟨lineBuffer, mode, hs, id, lineNumber⟩ := p
  obtain ⟨hbuffer, hid, hhunks, n, hmode⟩ := hp
  subst hbuffer hid hhunks hmode
  refine @leads_singleton _ _ _
    ⟨[], .updateFile n, hunks ++ [.updateFile path movePath' chunks'], id, lineNumber + 1⟩ ?_ ⟨rfl, rfl, rfl, n, rfl⟩
  unfold lineStep processLine
  rw [handleHunkHeadersAndEndPatch_none (by simp [environmentIdOf]) hline]
  simp [h, bind, Except.bind]
  rfl

theorem processMarkerLine_none (n : Nat) (hopen : lastEof chunks = false) (hstar : (trimEnd line).head? ≠ some '*')
    (hat : (trimEnd line).head? ≠ some '@') : processMarkerLine n movePath chunks line = none := by
  have hctx : ¬ isContextMarker (trimEnd line) := fun h => hat (isContextMarker_head h)
  have hmove : stripPrefix moveToMarker (trimEnd line) = none :=
    not_isSome_iff_eq_none.mp fun h => hstar (head_of_stripPrefix h)
  obtain ⟨hempty, hpre⟩ := not_isContextMarker hctx
  have heof : trimEnd line ≠ eofMarker := by
    intro h
    rw [h] at hstar
    exact hstar rfl
  simp [processMarkerLine, hopen, hctx, hmove, hempty, hpre, heof]

variable {chunk : UpdateFileChunk}

theorem InUpdateFile.diffLine (hp : InUpdateFile environmentId hunks path movePath (chunks ++ [chunk]) p)
    (hopen : chunk.isEndOfFile = false) (line : DiffLine) :
    Leads p [line.render] (InUpdateFile environmentId hunks path movePath
      (chunks ++ [{ chunk with oldLines := chunk.oldLines ++ line.oldLines,
                               newLines := chunk.newLines ++ line.newLines }])) := by
  obtain ⟨c, hstar, hat, text, hrender⟩ : ∃ c, c ≠ '*' ∧ c ≠ '@' ∧ ∃ text, line.render = c :: text := by
    cases line <;> exact ⟨_, by decide, by decide, _, rfl⟩
  have hne : ∀ d, c ≠ d → (trimEnd line.render).head? ≠ some d := by
    intro d hd h
    rw [hrender] at h
    exact hd (some.inj (head?_of_trimEnd h))
  refine hp.step (ofHeader_eq_none (hne _ hstar)) fun n => ?_
  have hmarker : processMarkerLine n movePath (chunks ++ [chunk]) line.render = none :=
    processMarkerLine_none n (by simpa using hopen) (hne _ hstar) (hne _ hat)
  simp only [processUpdateLine, hmarker]
  cases line <;> simp [DiffLine.render, processBodyLine, oldLines, newLines, bind, Except.bind, pure, Except.pure]

theorem InUpdateFile.context (hp : InUpdateFile environmentId hunks path movePath chunks p)
    (hblank : lastBlank chunks = false) (context : Option HeaderText) :
    Leads p [renderContext context] (InUpdateFile environmentId hunks path movePath
        (chunks ++ [⟨context.map (·.text), [], [], false⟩])) := by
  have hhead : (renderContext context).head? = some '@' := by cases context <;> rfl
  have htrim : trimEnd (renderContext context) = renderContext context := by
    refine trimEnd_eq_self ?_
    cases context with
    | none => decide
    | some context => exact noTrailing_append _ context.nonempty context.noTrailing
  have hmove : stripPrefix moveToMarker (renderContext context) = none :=
    stripPrefix_of_head (by decide) hhead
  refine hp.step (ofHeader_eq_none (by rw [htrim, hhead]; decide)) fun n => ?_
  unfold processUpdateLine processMarkerLine
  simp only [htrim, hmove]
  cases context with
  | none =>
    have hctx : isContextMarker (renderContext none) := rfl
    have hempty : (renderContext none).isEmpty = false := rfl
    have heq : renderContext none = emptyChangeContextMarker := rfl
    simp only [hctx, hempty, hblank]
    simp [heq]
  | some context =>
    have hpre : stripPrefix changeContextMarker (renderContext (some context)) = some context.text :=
      stripPrefix_append _ _
    have hctx : isContextMarker (renderContext (some context)) := by
      simp [isContextMarker, hpre]
    have hempty : (renderContext (some context)).isEmpty = false := rfl
    have hne : renderContext (some context) ≠ emptyChangeContextMarker := by
      intro h
      have := congrArg length h
      simp [renderContext, changeContextMarker, emptyChangeContextMarker] at this
    simp [hctx, hempty, hblank, hne, hpre]

theorem InUpdateFile.eof (hp : InUpdateFile environmentId hunks path movePath (chunks ++ [chunk]) p)
    (hopen : chunk.isEndOfFile = false) (hblank : chunk.isBlank = false) :
    Leads p [eofMarker] (InUpdateFile environmentId hunks path movePath
      (chunks ++ [{ chunk with isEndOfFile := true }])) := by
  have htrim : trimEnd eofMarker = eofMarker := by decide
  have hempty : eofMarker ≠ emptyChangeContextMarker := by decide
  have hpre : stripPrefix changeContextMarker eofMarker = none := by decide
  refine hp.step (by decide) fun n => ?_
  unfold processUpdateLine processMarkerLine
  simp [htrim, hopen, hblank, hempty, hpre]

theorem InUpdateFile.moveTo (hp : InUpdateFile environmentId hunks path none [] p) (dest : HeaderText) :
    Leads p [moveToMarker ++ dest.text] (InUpdateFile environmentId hunks path (some dest.text) []) := by
  have htrim : trimEnd (moveToMarker ++ dest.text) = moveToMarker ++ dest.text :=
    trimEnd_eq_self (noTrailing_append _ dest.nonempty dest.noTrailing)
  have hheader : Shape.ofHeader (moveToMarker ++ dest.text) = none := rfl
  refine hp.step (by rw [htrim, hheader]) fun n => ?_
  unfold processUpdateLine processMarkerLine
  simp only [htrim, stripPrefix_append]
  rfl

/-! ## Changes and hunks -/

theorem InUpdateFile.diffLines (lines : List DiffLine)
    (hp : InUpdateFile environmentId hunks path movePath (chunks ++ [chunk]) p) (hopen : chunk.isEndOfFile = false) :
    Leads p (lines.map (·.render)) (InUpdateFile environmentId hunks path movePath
        (chunks ++ [{ chunk with oldLines := chunk.oldLines ++ lines.flatMap (·.oldLines),
                                 newLines := chunk.newLines ++ lines.flatMap (·.newLines) }])) := by
  induction lines generalizing p chunk with
  | nil => exact ⟨p, rfl, by simpa using hp⟩
  | cons line lines ih =>
    refine (hp.diffLine hopen line).append fun q hin => ?_
    simpa using ih hin hopen

theorem Change.toChunk_isBlank (change : Change) : change.toChunk.isBlank = false := by
  obtain ⟨line, lines, hlines⟩ := exists_cons_of_ne_nil change.nonempty
  cases line <;> simp [UpdateFileChunk.isBlank, Change.toChunk, hlines, oldLines, newLines]

theorem InUpdateFile.change (hp : InUpdateFile environmentId hunks path movePath chunks p)
    (hblank : lastBlank chunks = false) (change : Change) :
    Leads p change.render (InUpdateFile environmentId hunks path movePath (chunks ++ [change.toChunk])) := by
  have hlines := (hp.context hblank change.changeContext).append fun q hin => hin.diffLines change.lines rfl
  refine hlines.append fun r hin => ?_
  have hchunk := change.toChunk_isBlank
  cases heof : change.isEndOfFile with
  | false => exact ⟨r, rfl, by simpa [Change.toChunk, heof] using hin⟩
  | true =>
    have hend := hin.eof rfl (by simpa [Change.toChunk, UpdateFileChunk.isBlank] using hchunk)
    simpa [Change.toChunk, heof] using hend

theorem InUpdateFile.changes (changes : List Change) (hp : InUpdateFile environmentId hunks path movePath chunks p)
    (hblank : lastBlank chunks = false) :
    Leads p (changes.flatMap (·.render))
      (InUpdateFile environmentId hunks path movePath (chunks ++ changes.map (·.toChunk))) := by
  induction changes generalizing p chunks with
  | nil => exact ⟨p, rfl, by simpa using hp⟩
  | cons change changes ih =>
    refine (hp.change hblank change).append fun q hin => ?_
    rw [map_cons, append_cons]
    exact ih hin (by rw [lastBlank_concat, change.toChunk_isBlank])

theorem InAddFile.lines (lines : List ContentLine) {contents : Str}
    (hp : InAddFile environmentId hunks path contents p) :
    Leads p (lines.map fun line => '+' :: line.text)
      (InAddFile environmentId hunks path (contents ++ lines.flatMap fun line => line.text ++ ['\n'])) := by
  induction lines generalizing p contents with
  | nil => exact ⟨p, rfl, by simpa using hp⟩
  | cons line lines ih =>
    refine (hp.line line.text).append fun q hin => ?_
    simpa using ih hin

theorem complete_concat {hunk : Hunk} (h : ∀ path movePath chunks, hunk = .updateFile path movePath chunks →
      chunks ≠ [] ∧ lastBlank chunks = false) : Complete (hunks ++ [hunk]) := by
  intro path movePath chunks hlast
  rw [getLast?_concat] at hlast
  exact h _ _ _ (some.inj hlast)

theorem Between.hunk (hp : Between environmentId hunks p) (tree : HunkTree) :
    Leads p tree.render (Between environmentId (hunks ++ [tree.toHunk])) := by
  cases tree with
  | addFile path lines =>
    have hopen : InAddFile environmentId hunks path.text [] (opened p (.addFile path.text []) .addFile) :=
      ⟨hp.lineBuffer, hp.environmentId, congrArg (· ++ _) hp.hunks, rfl⟩
    obtain ⟨q, hq, hin⟩ := (leads_singleton (hp.addFile path) hopen).append fun q hin => hin.lines lines
    refine ⟨q, hq, hin.lineBuffer, hin.environmentId, ?_, ?_, by rw [hin.mode]; exact nofun, by rw [hin.mode]; exact nofun⟩
    · simpa [HunkTree.toHunk] using hin.hunks
    · rw [hin.hunks]
      exact complete_concat nofun
  | deleteFile path =>
    exact leads_singleton (hp.deleteFile path)
      ⟨hp.lineBuffer, hp.environmentId, congrArg (· ++ _) hp.hunks, complete_concat nofun, nofun, nofun⟩
  | updateFile path movePath changes hne =>
    have hopen : InUpdateFile environmentId hunks path.text none []
        (opened p (.updateFile path.text none []) (.updateFile (p.lineNumber + 1))) :=
      ⟨hp.lineBuffer, hp.environmentId, congrArg (· ++ _) hp.hunks, _, rfl⟩
    have hmove : ∀ q, InUpdateFile environmentId hunks path.text none [] q →
        Leads q (movePath.toList.map fun path => moveToMarker ++ path.text)
          (InUpdateFile environmentId hunks path.text (movePath.map (·.text)) []) := by
      intro q hin
      cases movePath with
      | none => exact ⟨q, rfl, hin⟩
      | some dest => exact hin.moveTo dest
    have hheader := (leads_singleton (hp.updateFile path) hopen).append hmove
    obtain ⟨r, hr, hin⟩ := hheader.append fun q hin => hin.changes changes rfl
    obtain ⟨n, hn⟩ := hin.mode
    refine ⟨r, hr, hin.lineBuffer, hin.environmentId, by simpa [HunkTree.toHunk] using hin.hunks, ?_,
      by rw [hn]; exact nofun, by rw [hn]; exact nofun⟩
    rw [hin.hunks]
    refine complete_concat fun _ _ chunks h => ?_
    obtain rfl : [] ++ changes.map (·.toChunk) = chunks := by
      injection h
    obtain ⟨cs, change, rfl⟩ := (eq_nil_or_concat' changes).resolve_left hne
    refine ⟨by simp, ?_⟩
    rw [nil_append, map_append, map_singleton, lastBlank_concat, change.toChunk_isBlank]

theorem Between.hunks_run (trees : List HunkTree) (hp : Between environmentId hunks p) :
    Leads p (trees.flatMap (·.render)) (Between environmentId (hunks ++ trees.map (·.toHunk))) := by
  induction trees generalizing p hunks with
  | nil => exact ⟨p, rfl, by simpa using hp⟩
  | cons tree trees ih =>
    rw [map_cons, append_cons]
    exact (hp.hunk tree).append fun q hb => ih hb

end Lines

/-! ## The whole patch -/

variable (environmentId : Option Str)

theorem between_start (hid : ∀ id ∈ environmentId, IsEnvironmentId id) :
    Leads {} (beginPatchMarker :: renderEnvironmentId environmentId) (Between environmentId []) := by
  have hbegin : lineStep {} beginPatchMarker = .ok { mode := .startedPatch, lineNumber := 1 } := by
    decide
  cases environmentId with
  | none =>
    exact leads_singleton hbegin ⟨rfl, rfl, rfl, complete_nil, by simp, by simp⟩
  | some id =>
    obtain ⟨⟨hne, -, htrail⟩, hlead⟩ := hid id rfl
    have hstep : lineStep { mode := .startedPatch, lineNumber := 1 } (environmentIdMarker ++ ' ' :: id) =
        .ok { mode := .startedPatch, environmentId := some id, lineNumber := 2 } := by
      refine lineStep_header (by simp) (by simp) (noLeading_append rfl _ _) ?_ ?_
      · rw [show environmentIdMarker ++ ' ' :: id = (environmentIdMarker ++ [' ']) ++ id by simp]
        exact noTrailing_append _ hne htrail
      · have htrim : trim (' ' :: id) = id := by
          have hstart : trimStart (' ' :: id) = id := by
            exact trimStart_eq_self hlead
          rw [trim, hstart, trimEnd_eq_self htrail]
        simp [handleHunkHeadersAndEndPatch, environmentIdOf, htrim, hne]
    exact ⟨_, foldlM_cons_eq_ok.mpr ⟨_, hbegin, foldlM_cons_eq_ok.mpr ⟨_, hstep, rfl⟩⟩, rfl, rfl,
      rfl, complete_nil, by simp, by simp⟩

theorem Between.finish {environmentId : Option Str} {hunks : List Hunk} (hp : Between environmentId hunks p) :
    ∃ q, ApplyPatch.finish { p with lineBuffer := endPatchMarker } = .ok q ∧ q.hunks = hunks ∧
      q.environmentId = environmentId := by
  refine ⟨{ p with lineBuffer := [], lineNumber := p.lineNumber + 1, mode := .endedPatch }, ?_,
    hp.hunks, hp.environmentId⟩
  have htrim : trim endPatchMarker = endPatchMarker := by decide
  have hcomplete : Complete ({ p with lineBuffer := [], lineNumber := p.lineNumber + 1 } :
      StreamingPatchParser).hunks := hp.complete
  unfold ApplyPatch.finish finishLine
  simp only [htrim, ensureUpdateHunkIsNotEmpty_ok hcomplete]
  rfl

variable (trees : List HunkTree)

theorem runLines_renderBody (hid : ∀ id ∈ environmentId, IsEnvironmentId id) :
    ∃ q, runLines (renderBody environmentId trees) endPatchMarker = .ok q ∧
      q.hunks = trees.map (·.toHunk) ∧ q.environmentId = environmentId := by
  obtain ⟨r, hr, hb⟩ := (between_start environmentId hid).append fun q hb => hb.hunks_run trees
  obtain ⟨t, ht, hhunks, henv⟩ := hb.finish
  exact ⟨t, bind_eq_ok.mpr ⟨r, hr, ht⟩, by simpa using hhunks, henv⟩

def Clean (line : Str) : Prop := '\n' ∉ line ∧ stripCr line = line

theorem clean_header {marker : Str} (hm : '\n' ∉ marker) {text : Str} (h : IsHeaderText text) :
    Clean (marker ++ text) := by
  obtain ⟨hne, hlf, htrail⟩ := h
  refine ⟨by simp [hm, hlf], stripCr_eq_self fun h => ?_⟩
  rw [getLast?_append_of_ne_nil _ hne] at h
  have := htrail '\r' h
  cases this

theorem HeaderText.isHeaderText (text : HeaderText) : IsHeaderText text.text :=
  ⟨text.nonempty, text.oneLine, text.noTrailing⟩

theorem clean_content {c : Char} (hlf : c ≠ '\n') (hcr : c ≠ '\r') (line : ContentLine) : Clean (c :: line.text) := by
  refine ⟨by simp [hlf.symm, line.oneLine], stripCr_eq_self fun h => ?_⟩
  by_cases hne : line.text = []
  · rw [hne] at h
    exact hcr (by simpa using h)
  · rw [getLast?_cons_of_ne_nil hne] at h
    exact line.noCr h

theorem clean_change (change : Change) : ∀ line ∈ change.render, Clean line := by
  intro line hline
  have heof : Clean eofMarker := by unfold Clean; decide
  rcases mem_append.mp hline with hline | hline
  · rcases mem_cons.mp hline with rfl | hline
    · cases change.changeContext with
      | none => unfold Clean; decide
      | some context => exact clean_header (by decide) context.isHeaderText
    · obtain ⟨d, -, rfl⟩ := mem_map.mp hline
      cases d <;> exact clean_content (by decide) (by decide) _
  · split at hline
    · rw [mem_singleton.mp hline]; exact heof
    · cases hline

theorem clean_hunk (tree : HunkTree) : ∀ line ∈ tree.render, Clean line := by
  intro line hline
  cases tree with
  | addFile path lines =>
    rcases mem_cons.mp hline with rfl | hline
    · exact clean_header (by decide) path.isHeaderText
    · obtain ⟨l, -, rfl⟩ := mem_map.mp hline
      exact clean_content (by decide) (by decide) l
  | deleteFile path =>
    rw [mem_singleton.mp hline]
    exact clean_header (by decide) path.isHeaderText
  | updateFile path movePath changes =>
    rcases mem_append.mp hline with hline | hline
    · rcases mem_cons.mp hline with rfl | hline
      · exact clean_header (by decide) path.isHeaderText
      · obtain ⟨dest, -, rfl⟩ := mem_map.mp hline
        exact clean_header (by decide) dest.isHeaderText
    · obtain ⟨change, -, hline⟩ := mem_flatMap.mp hline
      exact clean_change change line hline

theorem clean_renderBody (hid : ∀ id ∈ environmentId, IsEnvironmentId id) :
    ∀ line ∈ renderBody environmentId trees, Clean line := by
  intro line hline
  have hbegin : Clean beginPatchMarker := by unfold Clean; decide
  rcases mem_append.mp hline with hline | hline
  · rcases mem_cons.mp hline with rfl | hline
    · exact hbegin
    · obtain ⟨id, hmem, rfl⟩ := mem_map.mp hline
      have hid := (hid id (mem_toList.mp hmem)).1
      rw [show environmentIdMarker ++ ' ' :: id = (environmentIdMarker ++ [' ']) ++ id by simp]
      exact clean_header (by decide) hid
  · obtain ⟨tree, -, hline⟩ := mem_flatMap.mp hline
    exact clean_hunk tree line hline

theorem trim_renderPatch : trim (renderPatch environmentId trees) = renderPatch environmentId trees := by
  refine trim_eq_self ?_ ?_
  · have hne : renderEnvironmentId environmentId ++ trees.flatMap (·.render) ++ [endPatchMarker] ≠ [] := by
      simp
    have hstart := joinLines_cons beginPatchMarker hne
    intro c hc
    rw [renderPatch, renderBody, cons_append, cons_append, hstart] at hc
    obtain rfl : '*' = c := some.inj hc
    rfl
  · have hne : renderBody environmentId trees ≠ [] := by simp [renderBody]
    rw [renderPatch, joinLines_concat hne]
    exact noTrailing_append _ (by decide) (by decide)

/-- `parse_patch` gives the hunks that a rendered patch was made from. -/
theorem parsePatch_renderPatch (hid : ∀ id ∈ environmentId, IsEnvironmentId id) :
    parsePatch (renderPatch environmentId trees) = .ok
      { patch := renderPatch environmentId trees, hunks := trees.map (·.toHunk), workdir := none,
        environmentId := environmentId } := by
  have hclean := clean_renderBody environmentId trees hid
  have hmap : (renderBody environmentId trees).map stripCr = renderBody environmentId trees :=
    (map_congr_left fun l hl => (hclean l hl).2).trans (map_id _)
  have hlf : ∀ l ∈ renderBody environmentId trees, '\n' ∉ l := fun l hl => (hclean l hl).1
  have hlines : Str.lines (renderPatch environmentId trees) = renderBody environmentId trees ++ [endPatchMarker] := by
    have h := lines_joinLines hlf (by decide : '\n' ∉ endPatchMarker) (by decide)
    rw [hmap] at h
    exact h
  have hfeed := pushDelta_finish (renderBody environmentId trees) endPatchMarker hlf (by decide)
  rw [hmap] at hfeed
  obtain ⟨q, hq, hhunks, henv⟩ := runLines_renderBody environmentId trees hid
  have hcheck : checkPatchBoundariesLenient (renderBody environmentId trees ++ [endPatchMarker]) =
      .ok (renderBody environmentId trees ++ [endPatchMarker]) := by
    have hfirst : (renderBody environmentId trees ++ [endPatchMarker]).head? = some beginPatchMarker := rfl
    have hbegin : trim beginPatchMarker = beginPatchMarker := by decide
    have hend : trim endPatchMarker = endPatchMarker := by decide
    simp [checkPatchBoundariesLenient, checkPatchBoundariesStrict, checkStartAndEndLinesStrict,
      hfirst, hbegin, hend, bind, Except.bind, pure, Except.pure]
  unfold parsePatch parsePatchText parseInStrictMode
  rw [trim_renderPatch, hlines]
  simp only [hcheck]
  have hjoin : joinLines (renderBody environmentId trees ++ [endPatchMarker]) = renderPatch environmentId trees := rfl
  rw [hjoin] at hfeed
  obtain ⟨p, hp, hfin⟩ := bind_eq_ok.mp (hfeed.trans hq)
  simp [hjoin, hp, hfin, hhunks, henv, bind, Except.bind, pure, Except.pure]

/-! ## Every hunk of the grammar has a tree -/

theorem exists_map_eq {α β : Type} {f : α → β} {P : β → Prop} (hf : ∀ b, P b → ∃ a, f a = b)
    (l : List β) (hl : ∀ b ∈ l, P b) : ∃ as : List α, as.map f = l := by
  have hrange : l ∈ {l | ∀ b ∈ l, b ∈ Set.range f} := fun b hb => hf b (hl b hb)
  rwa [← Set.range_list_map] at hrange

theorem exists_contentLine (line : Str) (h : IsContentLine line) : ∃ l : ContentLine, l.text = line :=
  ⟨⟨line, h.1, h.2⟩, rfl⟩

theorem exists_headerText (text : Str) (h : IsHeaderText text) : ∃ t : HeaderText, t.text = text :=
  ⟨⟨text, h.1, h.2.1, h.2.2⟩, rfl⟩

theorem exists_optionHeaderText (text : Option Str) (h : ∀ t ∈ text, IsHeaderText t) :
    ∃ t : Option HeaderText, t.map (·.text) = text := by
  cases text with
  | none => exact ⟨none, rfl⟩
  | some text =>
    obtain ⟨t, rfl⟩ := exists_headerText text (h text rfl)
    exact ⟨some t, rfl⟩

/-- The old lines of a chunk, removed, and its new lines, added. -/
theorem exists_change (chunk : UpdateFileChunk) (h : chunk.Renderable) : ∃ change : Change, change.toChunk = chunk := by
  obtain ⟨context, oldLines, newLines, eof⟩ := chunk
  obtain ⟨context, rfl⟩ := exists_optionHeaderText context h.changeContext
  obtain ⟨olds, rfl⟩ := exists_map_eq exists_contentLine oldLines h.oldLines
  obtain ⟨news, rfl⟩ := exists_map_eq exists_contentLine newLines h.newLines
  have hne : olds.map removed ++ news.map added ≠ [] := by
    rcases h.nonempty with h | h <;> simp_all
  refine ⟨⟨context, olds.map .removed ++ news.map .added, hne, eof⟩, ?_⟩
  simp only [Change.toChunk, flatMap_append, flatMap_map, oldLines, newLines]
  simp [← map_eq_flatMap]

theorem exists_tree (hunk : Hunk) (h : hunk.Renderable) : ∃ tree : HunkTree, tree.toHunk = hunk := by
  cases hunk with
  | addFile path contents =>
    obtain ⟨hpath, lines, hlines, rfl⟩ := h
    obtain ⟨path, rfl⟩ := exists_headerText path hpath
    obtain ⟨lines, rfl⟩ := exists_map_eq exists_contentLine lines hlines
    exact ⟨.addFile path lines, by simp [HunkTree.toHunk, flatMap_map]⟩
  | deleteFile path =>
    obtain ⟨path, rfl⟩ := exists_headerText path h
    exact ⟨.deleteFile path, rfl⟩
  | updateFile path movePath chunks =>
    obtain ⟨hpath, hmove, hne, hchunks⟩ := h
    obtain ⟨path, rfl⟩ := exists_headerText path hpath
    obtain ⟨movePath, rfl⟩ := exists_optionHeaderText movePath hmove
    obtain ⟨changes, rfl⟩ := exists_map_eq exists_change chunks hchunks
    exact ⟨.updateFile path movePath changes (by simpa using hne), rfl⟩

/-- Every list of hunks of the grammar has a rendering, and `parse_patch` gives the hunks and the
environment id back from each of its renderings. -/
theorem parsePatch_roundTrip (environmentId : Option Str) (hunks : List Hunk)
    (hid : ∀ id ∈ environmentId, IsEnvironmentId id) (hhunks : ∀ hunk ∈ hunks, hunk.Renderable) :
    (∃ trees : List HunkTree, trees.map (·.toHunk) = hunks) ∧
    ∀ trees : List HunkTree, trees.map (·.toHunk) = hunks → parsePatch (renderPatch environmentId trees) = .ok
        { patch := renderPatch environmentId trees, hunks := hunks, workdir := none,
          environmentId := environmentId } := by
  refine ⟨exists_map_eq exists_tree hunks hhunks, ?_⟩
  rintro trees rfl
  exact parsePatch_renderPatch environmentId trees hid

def markerFile : HunkTree :=
  .addFile ⟨"a".toList, by decide, by decide, by decide⟩
    [⟨"*** End Patch".toList, by decide, by decide⟩]

theorem parsePatch_roundTrip_marker : parsePatch (renderPatch (some "remote".toList) [markerFile]) = .ok
      { patch := renderPatch (some "remote".toList) [markerFile],
        hunks := [.addFile "a".toList "*** End Patch\n".toList], workdir := none,
        environmentId := some "remote".toList } := by
  refine (parsePatch_roundTrip (some "remote".toList) _ ?_ ?_).2 [markerFile] rfl
  · intro id hid
    obtain rfl : "remote".toList = id := Option.some.inj hid
    exact ⟨⟨by decide, by decide, by decide⟩, by decide⟩
  · intro hunk hhunk
    rw [List.mem_singleton.mp hhunk]
    refine ⟨⟨by decide, by decide, by decide⟩, ["*** End Patch".toList], ?_, rfl⟩
    intro line hline
    rw [List.mem_singleton.mp hline]
    exact ⟨by decide, by decide⟩

/-- An empty environment id is rendered to a line that `parse_patch` rejects. -/
theorem parsePatch_emptyEnvironmentId : parsePatch (renderPatch (some []) [markerFile]) =
      .error (.invalidPatchError "apply_patch environment_id cannot be empty".toList) := by
  decide

/-- However a rendered patch is cut into deltas, the stream gives the hunks that it was made from. -/
theorem streamPatch_renderPatch (hid : ∀ id ∈ environmentId, IsEnvironmentId id) (deltas : List Str)
    (hdeltas : deltas.flatten = renderPatch environmentId trees) :
    ∃ q, streamPatch deltas = .ok q ∧ q.hunks = trees.map (·.toHunk) ∧ q.environmentId = environmentId := by
  have hclean := clean_renderBody environmentId trees hid
  have hfeed := pushDelta_finish _ endPatchMarker (fun l hl => (hclean l hl).1) (by decide)
  rw [map_congr_left fun l hl => (hclean l hl).2, List.map_id'] at hfeed
  obtain ⟨q, hq, hhunks⟩ := runLines_renderBody environmentId trees hid
  rw [streamPatch_eq, hdeltas]
  exact ⟨q, hfeed.trans hq, hhunks⟩

theorem streamPatch_renderPatch_marker :
    ∃ q, streamPatch ["*** Begin Patch\n*** Add F".toList, "ile: a\n+*** End Patch\n*** End Patch".toList] = .ok q ∧
      q.hunks = [markerFile.toHunk] ∧ q.environmentId = none :=
  streamPatch_renderPatch none [markerFile] nofun _ (by decide)

end Dcode.ApplyPatch
