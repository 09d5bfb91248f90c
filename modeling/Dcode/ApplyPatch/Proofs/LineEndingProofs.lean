import Dcode.ApplyPatch.Proofs.PatchShapeProofs

/-!
# Proofs: a carriage return at the end of a line

One more carriage return at the end of a line is seen only where the line goes into the contents of a
hunk; an empty line of a chunk becomes an error. `parse_patch` strips one carriage return more than the
streaming parser does, so these are the lines on which the two differ.
-/

namespace Dcode.ApplyPatch

open StreamingPatchParser List Shape Option Str
open Str (trim trimEnd stripPrefix stripCr)

/-! ## The two ways to strip a line -/

theorem bareLine_cases (line : Str) : (∃ x, stripCr line = x ++ ['\r'] ∧ bareLine line = x ∧ endsInDoubleCr line) ∨
    (stripCr line = bareLine line ∧ endsInDoubleCr line = false) := by
  unfold bareLine endsInDoubleCr
  rcases stripCr_cases (stripCr line) with ⟨x, hx, hbare⟩ | ⟨hlast, hbare⟩
  · left
    refine ⟨x, hx, hbare, ?_⟩
    rcases stripCr_cases line with ⟨t, rfl, ht⟩ | ⟨hne, ht⟩
    · rw [ht] at hx
      rw [hx, isSuffixOf_iff_suffix]
      exact ⟨x, by simp⟩
    · rw [ht] at hx
      rw [hx] at hne
      simp at hne
  · right
    refine ⟨hbare.symm, ?_⟩
    rw [Bool.eq_false_iff]
    intro h
    obtain ⟨x, rfl⟩ := List.isSuffixOf_iff_suffix.mp h
    refine hlast ?_
    rw [show x ++ ['\r', '\r'] = x ++ ['\r'] ++ ['\r'] by simp, stripCr_concat]
    simp

/-! ## The shape machine -/

variable {x : Str}

theorem isBody_concat (hx : x ≠ []) (c : Char) : isBody (x ++ [c]) = isBody x := by
  cases x with
  | nil => exact absurd rfl hx
  | cons => rfl

theorem stripPlus_concat (x : Str) : (stripPrefix ['+'] (x ++ ['\r'])).isSome = (stripPrefix ['+'] x).isSome := by
  cases x with
  | nil => rfl
  | cons c x =>
    by_cases hc : '+' = c
    · subst hc; rfl
    · simp [stripPrefix, List.isPrefixOf?, hc]

variable {s : Shape}

theorem updateStep_concat_cr (h : s = .chunkEof ∨ x ≠ []) : s.updateStep (x ++ ['\r']) = s.updateStep x := by
  unfold updateStep
  rw [trimEnd_concat_ws x isWhitespace_cr]
  rcases h with rfl | hx
  · -- a closed chunk looks at the trimmed line only
    by_cases hu : (trimEnd x).isEmpty
    · simp [hu]
    · by_cases hctx : isContextMarker (trimEnd x) <;> simp [hctx]
  · rw [isBody_concat hx]

/-- The step is the same unless the line is an empty line of a chunk. -/
theorem step_concat_cr (h : s.isContent x = false ∨ x ≠ []) : s.step (x ++ ['\r']) = s.step x := by
  have htrim := trim_concat_ws x isWhitespace_cr
  have htrimEnd := trimEnd_concat_ws x isWhitespace_cr
  have hopen : s.isContent x = false ∨ x ≠ [] → isContent s x = isBody x → x ≠ [] := by
    rintro (hc | hx) heq
    · rintro rfl
      rw [hc] at heq
      cases heq
    · exact hx
  cases s with
  | notStarted | startedPatch | deleteFile | endedPatch => simp [step, htrim]
  | addFile => simp [step, htrim, stripPlus_concat]
  | chunkEof => simp [step, htrimEnd, updateStep_concat_cr (Or.inl rfl)]
  | updateHeader | chunkBlank | chunkOpen =>
    have hx := hopen h rfl
    simp [step, htrimEnd, updateStep_concat_cr (Or.inr hx)]

/-- With a carriage return an empty line is no line of a chunk. -/
theorem step_cr_of_isContent (h : s.isContent []) : s.step ['\r'] = none := by
  cases s with
  | updateHeader moved => cases moved <;> rfl
  | chunkBlank | chunkOpen => rfl
  | _ => cases h

variable {t : Shape}

theorem step_of_step_concat_cr (h : s.step (x ++ ['\r']) = some t) : s.step x = some t := by
  by_cases hx : s.isContent x = false ∨ x ≠ []
  · rwa [step_concat_cr hx] at h
  · obtain ⟨hc, rfl⟩ : s.isContent x ∧ x = [] := by simpa using hx
    rw [nil_append, step_cr_of_isContent hc] at h
    cases h

theorem isContent_concat_cr (hx : x ≠ []) : s.isContent (x ++ ['\r']) = s.isContent x := by
  cases s with
  | addFile => exact stripPlus_concat x
  | updateHeader | chunkBlank | chunkOpen => exact isBody_concat hx '\r'
  | _ => rfl

theorem gain_concat_cr_lt (hx : x ≠ []) (hc : s.isContent x) : s.gain x < s.gain (x ++ ['\r']) := by
  unfold gain
  rw [isContent_concat_cr hx, if_pos hc]
  have hlen : (x ++ ['\r']).length = x.length + 1 := by simp
  have hpos : 0 < x.length := List.length_pos_iff.mpr hx
  have hhead : (x ++ ['\r']).head? = x.head? := head?_append_of_ne_nil x hx
  split
  · omega
  · unfold bodyGain
    rw [hhead]
    split <;> omega

theorem gain_concat_cr_le (h : s.step (x ++ ['\r']) = some t) : s.gain x ≤ s.gain (x ++ ['\r']) := by
  by_cases hc : s.isContent x
  · by_cases hx : x = []
    · subst hx
      rw [nil_append, step_cr_of_isContent hc] at h
      cases h
    · exact (gain_concat_cr_lt hx hc).le
  · simp [gain, hc]

theorem foldlM_step_bareLine (lines : List Str) (h : (lines.map stripCr).foldlM step s = some t) :
    (lines.map bareLine).foldlM step s = some t := by
  induction lines generalizing s with
  | nil => exact h
  | cons line lines ih =>
    obtain ⟨u, hu, h⟩ := bind_eq_some_iff.mp h
    have hstep : s.step (bareLine line) = some u := by
      rcases bareLine_cases line with ⟨x, hx, hbare, -⟩ | ⟨heq, -⟩
      · rw [hbare]
        exact step_of_step_concat_cr (hx ▸ hu)
      · rwa [← heq]
    exact bind_eq_some_iff.mpr ⟨u, hstep, ih h⟩

/-- The carriage returns add to the contents, if some line of the contents ends in two of them. -/
theorem totalGain_bareLine (lines : List Str) (h : (lines.map stripCr).foldlM step s = some t) :
    s.totalGain (lines.map bareLine) ≤ s.totalGain (lines.map stripCr) ∧
    (s.doubleCrContent lines → s.totalGain (lines.map bareLine) < s.totalGain (lines.map stripCr)) := by
  induction lines generalizing s with
  | nil => exact ⟨le_refl _, nofun⟩
  | cons line lines ih =>
    obtain ⟨u, hu, h⟩ := bind_eq_some_iff.mp h
    obtain ⟨hle, hlt⟩ := ih h
    simp only [map_cons, totalGain, doubleCrContent, hu]
    rcases bareLine_cases line with ⟨x, hx, hbare, hdouble⟩ | ⟨heq, hdouble⟩
    · rw [hx] at hu ⊢
      have hgain := gain_concat_cr_le hu
      have hstep := step_of_step_concat_cr hu
      rw [hbare, hstep, hdouble]
      refine ⟨by dsimp only; omega, fun hc => ?_⟩
      rcases Bool.or_eq_true _ _ ▸ hc with hc | hc
      · have hcontent : s.isContent x := by simpa using hc
        have hne : x ≠ [] := by
          rintro rfl
          rw [nil_append, step_cr_of_isContent hcontent] at hu
          cases hu
        have := gain_concat_cr_lt hne hcontent
        dsimp only
        omega
      · have := hlt hc
        dsimp only
        omega
    · rw [← heq, hu, hdouble]
      refine ⟨by dsimp only; omega, fun hc => ?_⟩
      have := hlt (by simpa using hc)
      dsimp only
      omega

/-! ## The parser -/

/-- A marker line of an update hunk is recognised with or without the carriage return. -/
theorem processMarkerLine_concat_cr (n : Nat) (movePath : Option Str) (chunks : List UpdateFileChunk) (x : Str) :
    (processMarkerLine n movePath chunks (x ++ ['\r'])).map Except.toOption =
      (processMarkerLine n movePath chunks x).map Except.toOption := by
  unfold processMarkerLine
  rw [trimEnd_concat_ws x isWhitespace_cr]
  dsimp only
  split
  · rfl
  · split
    · rfl
    · split
      · rfl
      · split
        · rfl
        · rfl

theorem processBodyLine_error (n : Nat) (chunks : List UpdateFileChunk) {line : Str}
    (h : isBody line = false) : ∃ e, processBodyLine n chunks line = .error e := by
  cases line with
  | nil => cases h
  | cons c rest =>
    obtain ⟨⟨h1, h2⟩, h3⟩ : (c ≠ ' ' ∧ c ≠ '+') ∧ c ≠ '-' := by simpa [isBody] using h
    simp only [processBodyLine, if_neg h1, if_neg h2, if_neg h3]
    split <;> exact ⟨_, rfl⟩

theorem processUpdateLine_concat_cr (n : Nat) (movePath : Option Str) {chunks : List UpdateFileChunk}
    (h : lastEof chunks ∨ isBody x = false) (heof : EofClosed chunks) :
    (processUpdateLine n movePath chunks (x ++ ['\r'])).toOption =
      (processUpdateLine n movePath chunks x).toOption := by
  have hmarker := processMarkerLine_concat_cr n movePath chunks x
  have hrefines := processMarkerLine_refines n movePath heof x
  unfold processUpdateLine
  cases hx : processMarkerLine n movePath chunks x with
  | some r =>
    rw [hx] at hmarker
    obtain ⟨r', hr', heq⟩ := map_eq_some_iff.mp hmarker
    rw [hr']
    exact heq
  | none =>
    rw [hx] at hmarker hrefines
    rw [map_eq_none_iff.mp hmarker]
    -- a line that is no marker of an open chunk goes by its first character
    have hbody : isBody x = false := by
      rcases h with h | h
      · rw [hrefines.1] at h; cases h
      · exact h
    have hne : x ≠ [] := by rintro rfl; cases hbody
    obtain ⟨e, he⟩ := processBodyLine_error n chunks hbody
    obtain ⟨e', he'⟩ := processBodyLine_error n chunks ((isBody_concat hne '\r').trans hbody)
    rw [he, he']
    rfl

theorem toOption_bind {ε α β : Type} (x : Except ε α) (f : α → Except ε β) :
    (x >>= f).toOption = x.toOption.bind fun a => (f a).toOption := by
  cases x <;> rfl

/-- The parser sees a carriage return only on a line of contents. -/
theorem processLine_concat_cr {p : StreamingPatchParser} (hp : p.WellFormed) (h : p.shape.isContent x = false) :
    (processLine p (x ++ ['\r'])).toOption = (processLine p x).toOption := by
  unfold processLine
  rw [trim_concat_ws x isWhitespace_cr, trimEnd_concat_ws x isWhitespace_cr]
  cases hmode : p.mode with
  | notStarted | startedPatch | deleteFile | endedPatch => rfl
  | addFile =>
    have hplus : stripPrefix ['+'] x = none := by simpa [shape, hmode, isContent] using h
    have hplus' : stripPrefix ['+'] (x ++ ['\r']) = none := by
      rw [← not_isSome_iff_eq_none, stripPlus_concat, hplus]
      simp
    simp only [toOption_bind]
    congr 1
    funext r
    cases r with
    | some q => rfl
    | none => simp only [processAddLine, hplus, hplus']; rfl
  | updateFile n =>
    obtain ⟨path, movePath, chunks, hlast⟩ := hp.updateFile n hmode
    have hcases : lastEof chunks ∨ isBody x = false := by
      have hshape : p.shape = chunksShape movePath chunks := by simp [shape, hmode, hlast]
      rw [hshape, chunksShape_isContent] at h
      rcases Bool.and_eq_false_iff.mp h with h | h
      · exact Or.inl (by simpa using h)
      · exact Or.inr h
    simp only [toOption_bind, hlast]
    congr 1
    funext r
    cases r with
    | some q => rfl
    | none =>
      simp only [toOption_bind]
      rw [processUpdateLine_concat_cr p.lineNumber movePath hcases (hp.eofClosed _ _ _ hlast)]

/-- Without lines of contents that end in two carriage returns it does not matter whether one or two
of them are stripped. -/
theorem foldlM_lineStep_bareLine (lines : List Str) {p : StreamingPatchParser} (hp : p.WellFormed)
    (h : p.shape.doubleCrContent lines = false) :
    ((lines.map stripCr).foldlM lineStep p).toOption = ((lines.map bareLine).foldlM lineStep p).toOption := by
  induction lines generalizing p with
  | nil => rfl
  | cons line lines ih =>
    obtain ⟨hcontent, hrest⟩ := Bool.or_eq_false_iff.mp h
    have hline : (lineStep p (stripCr line)).toOption = (lineStep p (bareLine line)).toOption := by
      rcases bareLine_cases line with ⟨x, hx, hbare, hdouble⟩ | ⟨heq, -⟩
      · rw [hbare, hdouble, Bool.and_true] at hcontent
        rw [hx, hbare]
        exact processLine_concat_cr (hp.frame p.lineBuffer (p.lineNumber + 1)) hcontent
      · rw [heq]
    rw [map_cons, map_cons, foldlM_cons, foldlM_cons, toOption_bind, hline]
    cases hq : lineStep p (bareLine line) with
    | error e => rfl
    | ok q =>
      have hrefines := lineStep_refines hp (bareLine line)
      rw [hq] at hrefines
      obtain ⟨t, ht, hwf, rfl, -⟩ := hrefines
      rw [ht] at hrest
      exact ih hwf hrest

end Dcode.ApplyPatch
