import Dcode.ApplyPatch.Parser
import Dcode.ApplyPatch.Proofs.LineEndingProofs

/-!
# Proofs: parsing at once and parsing a stream

`parse_patch` hands its text, split into lines and joined again, to the parser that a stream of deltas is
fed to. The two results are the same except on a patch with a line of contents that ends in two carriage
returns, and on the end marker alone.
-/

namespace Dcode.ApplyPatch

open List Option Shape Str
open Str (trim trimEnd stripPrefix stripCr joinLines NoLeading NoTrailing)

/-! ## The lines of a text -/

theorem joinLines_terminatedLines (text : Str) : joinLines (terminatedLines text ++ [lastLine text]) = text := by
  have hne := splitOn_ne_nil '\n' text
  rw [terminatedLines, lastLine, getLastD_eq_getLast?, getLast?_eq_some_getLast hne]
  simp only [getD_some, dropLast_append_getLast hne]
  exact intercalate_splitOn '\n'

theorem not_mem_terminatedLines (text : Str) : ∀ l ∈ terminatedLines text, '\n' ∉ l :=
  fun _ hl => not_mem_of_mem_splitOn (mem_of_mem_dropLast hl)

theorem not_mem_lastLine (text : Str) : '\n' ∉ lastLine text := by
  have hne := splitOn_ne_nil '\n' text
  rw [lastLine, getLastD_eq_getLast?, getLast?_eq_some_getLast hne]
  exact not_mem_of_mem_splitOn (getLast_mem hne)

variable {text : Str}

theorem lastLine_of_noTrailing (ht : NoTrailing text) (hne : text ≠ []) :
    lastLine text ≠ [] ∧ NoTrailing (lastLine text) := by
  have hjoin := joinLines_terminatedLines text
  by_cases hls : terminatedLines text = []
  · have heq : lastLine text = text := by
      rw [hls] at hjoin
      simpa [joinLines] using hjoin
    rw [heq]
    exact ⟨hne, ht⟩
  · rw [joinLines_concat hls] at hjoin
    have hlast : lastLine text ≠ [] := by
      intro h
      have := ht '\n' (by rw [← hjoin, h]; simp)
      cases this
    refine ⟨hlast, fun c hc => ht c ?_⟩
    rw [← hjoin, getLast?_append, getLast?_cons_of_ne_nil hlast, hc]
    rfl

/-! ## The parser on lines -/

def runLines (lines : List Str) (last : Str) : Except ParseError StreamingPatchParser := do
  let q ← lines.foldlM lineStep {}
  finish { q with lineBuffer := last }

theorem pushDelta_finish (ls : List Str) (last : Str) (hls : ∀ l ∈ ls, '\n' ∉ l) (hlast : '\n' ∉ last) :
    (do finish (← pushDelta {} (joinLines (ls ++ [last])))) = runLines (ls.map stripCr) last := by
  rw [pushDelta_joinLines ls last hls hlast {} rfl, runLines]
  cases (ls.map stripCr).foldlM lineStep {} <;> rfl

theorem streamPatch_eq_runLines (deltas : List Str) : streamPatch deltas =
    runLines ((terminatedLines deltas.flatten).map stripCr) (lastLine deltas.flatten) := by
  rw [streamPatch_eq, ← pushDelta_finish _ _ (not_mem_terminatedLines _) (not_mem_lastLine _),
    joinLines_terminatedLines]

theorem runLines_refines (lines : List Str) (last : Str) :
    match runLines lines last with
    | .ok q => ∃ t, lines.foldlM step .notStarted = some t ∧ t.finish last = some .endedPatch ∧
        hunksWeight q.hunks = Shape.notStarted.totalGain lines + t.finishGain last
    | .error _ => (lines.foldlM step .notStarted).bind (·.finish last) ≠ some .endedPatch := by
  have hrun := lineSteps_refines lines wellFormed_init
  unfold runLines
  cases hr : lines.foldlM lineStep {} with
  | error e =>
    rw [hr] at hrun
    rw [show lines.foldlM step .notStarted = none from hrun]
    exact nofun
  | ok q =>
    rw [hr] at hrun
    obtain ⟨t, ht, hwf, rfl, hw⟩ := hrun
    have hfin := finish_refines (hwf.frame last q.lineNumber)
    simp only [bind, Except.bind]
    cases hf : finish { q with lineBuffer := last } with
    | error e =>
      rw [hf] at hfin
      rw [show lines.foldlM step .notStarted = some q.shape from ht]
      exact hfin
    | ok q' =>
      rw [hf] at hfin
      refine ⟨q.shape, ht, hfin.1, ?_⟩
      rw [hfin.2]
      exact congrArg (· + _) (hw.trans (Nat.zero_add _))

/-- However a text is streamed, it is accepted exactly if its lines are a run of the shape machine to the end of a patch, and
the hunks then hold what the lines of the run carry. -/
theorem streamPatch_refines (deltas : List Str) :
    let lines := (terminatedLines deltas.flatten).map stripCr
    let last := lastLine deltas.flatten
    match streamPatch deltas with
    | .ok q => ∃ t, lines.foldlM step .notStarted = some t ∧ t.finish last = some .endedPatch ∧
        hunksWeight q.hunks = Shape.notStarted.totalGain lines + t.finishGain last
    | .error _ => (lines.foldlM step .notStarted).bind (·.finish last) ≠ some .endedPatch := by
  rw [streamPatch_eq_runLines]
  exact runLines_refines _ _

/-! ## The first and the last line -/

theorem ofHeader_eq_endedPatch {trimmed : Str} (h : ofHeader trimmed = some .endedPatch) :
    trimmed = endPatchMarker := by
  unfold ofHeader at h
  split at h
  · assumption
  · split at h
    · cases h
    · split at h
      · cases h
      · split at h <;> cases h

theorem updateStep_ne_endedPatch {s : Shape} (hs : s ≠ .endedPatch) (line : Str) :
    s.updateStep line ≠ some .endedPatch := by
  unfold updateStep
  dsimp only
  repeat' split
  all_goals simp [hs]

theorem trim_eq_endPatchMarker {s : Shape} {line : Str} (hne : line ≠ []) (ht : NoTrailing line)
    (h : s.finish line = some .endedPatch) : trim line = endPatchMarker := by
  unfold Shape.finish at h
  rw [if_neg (by simp [hne])] at h
  split at h
  · assumption
  · cases s with
    | notStarted =>
      simp only [step] at h
      split at h <;> cases h
    | startedPatch b =>
      simp only [step] at h
      split at h
      · split at h <;> cases h
      · exact ofHeader_eq_endedPatch h
    | addFile =>
      simp only [step] at h
      split at h
      next ho =>
        obtain rfl := some.inj h
        exact ofHeader_eq_endedPatch ho
      · split at h <;> cases h
    | deleteFile => exact ofHeader_eq_endedPatch h
    | endedPatch =>
      simp only [step] at h
      split at h
      next hblank =>
        exact absurd (List.isEmpty_iff.mp hblank) (trim_ne_nil hne ht)
      · cases h
    | updateHeader | chunkBlank | chunkOpen | chunkEof =>
      simp only [step] at h
      split at h
      next ho =>
        split at h
        · obtain rfl := some.inj h
          have hline := ofHeader_eq_endedPatch ho
          rw [trimEnd_eq_self ht] at hline
          rw [hline]
          rfl
        · cases h
      · exact absurd h (updateStep_ne_endedPatch (by simp) line)

/-- The text has the shape of a patch: a run of the machine over its lines that ends. -/
theorem isPatch_iff : isPatch text ↔ ∃ t, ((terminatedLines text).map bareLine).foldlM step .notStarted = some t ∧
      t.finish (lastLine text) = some .endedPatch := by
  rw [isPatch, decide_eq_true_iff, bind_eq_some_iff]

/-- A patch other than the end marker alone begins at the begin marker and ends at the end marker. -/
theorem bounds_of_isPatch (hl : NoLeading text) (ht : NoTrailing text) (hne : text ≠ []) (hend : text ≠ endPatchMarker)
    (h : isPatch text) :
    ((terminatedLines text).map stripCr ++ [lastLine text]).head?.map trim = some beginPatchMarker ∧
    trim (lastLine text) = endPatchMarker := by
  obtain ⟨hlast, hlt⟩ := lastLine_of_noTrailing ht hne
  obtain ⟨t, hrun, hfin⟩ := isPatch_iff.mp h
  have htrim := trim_eq_endPatchMarker hlast hlt hfin
  refine ⟨?_, htrim⟩
  cases hls : terminatedLines text with
  | nil =>
    -- a single line is the end marker, the text that is excluded
    have heq : lastLine text = text := by
      have hjoin := joinLines_terminatedLines text
      rw [hls] at hjoin
      simpa [joinLines] using hjoin
    rw [heq, trim_eq_self hl ht] at htrim
    exact absurd htrim hend
  | cons first rest =>
    rw [hls] at hrun
    obtain ⟨u, hu, -⟩ := Option.bind_eq_some_iff.mp hrun
    have hfirst : trim (bareLine first) = beginPatchMarker := by
      by_contra hb
      simp [step, hb] at hu
    simpa [bareLine] using hfirst

/-! ## Both parsers -/

theorem checkPatchBoundariesLenient_eq {ls : List Str} {last : Str} (hh : isHeredoc (ls ++ [last]) = false) :
    (checkPatchBoundariesLenient (ls ++ [last])).toOption =
      if (ls ++ [last]).head?.map trim = some beginPatchMarker ∧ trim last = endPatchMarker then
        some (ls ++ [last])
      else none := by
  unfold checkPatchBoundariesLenient checkPatchBoundariesStrict checkStartAndEndLinesStrict
  rw [hh]
  cases hfirst : (ls ++ [last]).head? with
  | none => simp at hfirst
  | some first =>
    by_cases hb : trim first = beginPatchMarker
    · by_cases he : trim last = endPatchMarker
      · simp [hb, he, bind, Except.bind, pure, Except.pure, Except.toOption]
      · simp [hb, he, Except.toOption]
    · simp [hb, Except.toOption]

theorem parsePatch_eq (hl : NoLeading text) (ht : NoTrailing text) (hne : text ≠ [])
    (hh : isHeredoc (lines text) = false) :
    (parsePatch text).toOption.map (fun args => (args.hunks, args.environmentId)) =
      if ((terminatedLines text).map stripCr ++ [lastLine text]).head?.map trim =
          some beginPatchMarker ∧ trim (lastLine text) = endPatchMarker then
        (runLines ((terminatedLines text).map bareLine) (lastLine text)).toOption.map
          fun q => (q.hunks, q.environmentId)
      else none := by
  obtain ⟨hlast, -⟩ := lastLine_of_noTrailing ht hne
  have hlines : lines text = (terminatedLines text).map stripCr ++ [lastLine text] := by
    conv_lhs => rw [← joinLines_terminatedLines text]
    exact lines_joinLines (not_mem_terminatedLines text) (not_mem_lastLine text) hlast
  have hfeed := pushDelta_finish ((terminatedLines text).map stripCr) (lastLine text) (fun l hl => by
      obtain ⟨l', hl', rfl⟩ := List.mem_map.mp hl
      exact fun h => not_mem_terminatedLines text l' hl' (mem_of_mem_stripCr h))
    (not_mem_lastLine text)
  rw [List.map_map] at hfeed
  have hcheck := checkPatchBoundariesLenient_eq (hlines ▸ hh)
  unfold parsePatch parsePatchText parseInStrictMode
  rw [trim_eq_self hl ht, hlines]
  simp only [Bool.false_eq_true, if_false]
  generalize (terminatedLines text).map stripCr ++ [lastLine text] = ls at hcheck hfeed ⊢
  cases hc : checkPatchBoundariesLenient ls with
  | error e =>
    rw [hc] at hcheck
    split
    next hcond =>
      rw [if_pos hcond] at hcheck
      cases hcheck
    · rfl
  | ok ls' =>
    rw [hc] at hcheck
    split
    next hcond =>
      rw [if_pos hcond] at hcheck
      obtain rfl : ls' = ls := some.inj hcheck
      rw [show (terminatedLines text).map bareLine = (terminatedLines text).map (stripCr ∘ stripCr) from rfl, ← hfeed]
      simp only [bind, Except.bind]
      cases pushDelta {} (joinLines ls') with
      | error e => rfl
      | ok q =>
        dsimp only
        cases finish q <;> rfl
    next hcond =>
      rw [if_neg hcond] at hcheck
      cases hcheck

/-- A run that succeeds, on the lines with or without their second carriage return, shows a patch. -/
theorem isPatch_of_runLines {q : StreamingPatchParser}
    (h : runLines ((terminatedLines text).map stripCr) (lastLine text) = .ok q ∨
      runLines ((terminatedLines text).map bareLine) (lastLine text) = .ok q) : isPatch text := by
  rcases h with h | h
  · have hrefines := runLines_refines ((terminatedLines text).map stripCr) (lastLine text)
    rw [h] at hrefines
    obtain ⟨t, hrun, hfin, -⟩ := hrefines
    exact isPatch_iff.mpr ⟨t, foldlM_step_bareLine _ hrun, hfin⟩
  · have hrefines := runLines_refines ((terminatedLines text).map bareLine) (lastLine text)
    rw [h] at hrefines
    obtain ⟨t, hrun, hfin, -⟩ := hrefines
    exact isPatch_iff.mpr ⟨t, hrun, hfin⟩

/-- A patch is read from the lines without their second carriage return. -/
theorem exists_runLines_of_isPatch (h : isPatch text) :
    ∃ q, runLines ((terminatedLines text).map bareLine) (lastLine text) = .ok q := by
  have hbare := runLines_refines ((terminatedLines text).map bareLine) (lastLine text)
  cases hb : runLines ((terminatedLines text).map bareLine) (lastLine text) with
  | error e =>
    rw [hb] at hbare
    exact absurd (Option.bind_eq_some_iff.mpr (isPatch_iff.mp h)) hbare
  | ok q => exact ⟨q, rfl⟩

/-- Where a line of the contents ends in two carriage returns, the stream keeps more characters, so its hunks
are not the same. -/
theorem runLines_hunks_ne (hdouble : hasDoubleCrContent text) {q q' : StreamingPatchParser}
    (ha : runLines ((terminatedLines text).map stripCr) (lastLine text) = .ok q')
    (hb : runLines ((terminatedLines text).map bareLine) (lastLine text) = .ok q) : q'.hunks ≠ q.hunks := by
  have hstream := runLines_refines ((terminatedLines text).map stripCr) (lastLine text)
  have hbare := runLines_refines ((terminatedLines text).map bareLine) (lastLine text)
  rw [ha] at hstream
  rw [hb] at hbare
  obtain ⟨u, hu, -, hw⟩ := hstream
  obtain ⟨v, hv, -, hw'⟩ := hbare
  obtain rfl : u = v := some.inj ((foldlM_step_bareLine _ hu).symm.trans hv)
  have hlt := (totalGain_bareLine _ hu).2 hdouble
  intro hhunks
  rw [hhunks] at hw
  omega

/-- Parsing a stream of deltas gives what `parse_patch` gives, however the text is cut, exactly when the
text is not the end marker alone and, if it is a patch at all, no line of its contents ends in two
carriage returns. -/
theorem streamPatch_eq_parsePatch_iff (text : Str) (hl : NoLeading text) (ht : NoTrailing text)
    (hh : isHeredoc (Str.lines text) = false) :
    (∀ deltas : List Str, deltas.flatten = text →
      (streamPatch deltas).toOption.map (fun q => (q.hunks, q.environmentId)) =
        (parsePatch text).toOption.map fun args => (args.hunks, args.environmentId)) ↔
    text ≠ endPatchMarker ∧ (isPatch text = true → hasDoubleCrContent text = false) := by
  by_cases hne : text = []
  · subst hne
    refine iff_of_true (fun deltas hd => ?_) (by decide)
    rw [streamPatch_eq_runLines, hd]
    rfl
  have hparse := parsePatch_eq hl ht hne hh
  constructor
  · intro hagree
    have hagree := hagree [text] (by simp)
    rw [streamPatch_eq_runLines, show [text].flatten = text by simp] at hagree
    have hend : text ≠ endPatchMarker := by
      rintro rfl
      revert hagree
      decide
    refine ⟨hend, fun hpatch => ?_⟩
    rw [hparse, if_pos (bounds_of_isPatch hl ht hne hend hpatch)] at hagree
    obtain ⟨q, hb⟩ := exists_runLines_of_isPatch hpatch
    apply Bool.eq_false_of_not_eq_true
    intro hdouble
    cases ha : runLines ((terminatedLines text).map stripCr) (lastLine text) with
    | error e =>
      rw [ha, hb] at hagree
      cases hagree
    | ok q' =>
      rw [ha, hb] at hagree
      obtain ⟨hhunks, -⟩ := Prod.mk.inj (some.inj hagree)
      exact runLines_hunks_ne hdouble ha hb hhunks
  · rintro ⟨hend, hdouble⟩ deltas hd
    rw [streamPatch_eq_runLines, hd, hparse]
    by_cases hpatch : isPatch text
    · rw [if_pos (bounds_of_isPatch hl ht hne hend hpatch)]
      have hsame := foldlM_lineStep_bareLine (terminatedLines text) wellFormed_init (hdouble hpatch)
      unfold runLines
      rw [toOption_bind, toOption_bind, hsame]
    · -- a text that is no patch is rejected by both
      have hb : (runLines ((terminatedLines text).map bareLine) (lastLine text)).toOption = none := by
        cases hb : runLines ((terminatedLines text).map bareLine) (lastLine text) with
        | error e => rfl
        | ok q => exact absurd (isPatch_of_runLines (.inr hb)) hpatch
      have ha : (runLines ((terminatedLines text).map stripCr) (lastLine text)).toOption = none := by
        cases ha : runLines ((terminatedLines text).map stripCr) (lastLine text) with
        | error e => rfl
        | ok q => exact absurd (isPatch_of_runLines (.inl ha)) hpatch
      rw [ha, hb]
      simp

/-- The two parsers agree on a patch whose only carriage returns end a line, cut inside the line
endings. -/
theorem streamPatch_eq_parsePatch_crlf : (streamPatch ["*** Begin Patch\r\n*** Add".toList, " File: a\r\n+x\r".toList,
        "\n*** End Patch".toList]).toOption.map (fun q => (q.hunks, q.environmentId)) =
      (parsePatch "*** Begin Patch\r\n*** Add File: a\r\n+x\r\n*** End Patch".toList).toOption.map
        fun args => (args.hunks, args.environmentId) :=
  (streamPatch_eq_parsePatch_iff _ (by decide) (by decide) (by decide)).mpr (by decide) _ (by decide)

/-- A line of contents that ends in two carriage returns keeps one of them in the stream and none in
`parse_patch`; the end marker alone is a patch for the stream and an error for `parse_patch`. -/
theorem streamPatch_doubleCr :
    (streamPatch ["*** Begin Patch\n*** Add File: a\n+x\r\r\n*** End Patch".toList]).toOption.map
        (·.hunks) = some [.addFile "a".toList "x\r\n".toList] ∧
    (parsePatch "*** Begin Patch\n*** Add File: a\n+x\r\r\n*** End Patch".toList).toOption.map
        (·.hunks) = some [.addFile "a".toList "x\n".toList] ∧
    (streamPatch ["*** End Patch".toList]).toOption.map (·.hunks) = some [] ∧
    (parsePatch "*** End Patch".toList).toOption = none := by
  decide

end Dcode.ApplyPatch
