import Dcode.ApplyPatch.StreamingParser
import Dcode.Lib.Run

/-!
# Proofs: deltas and lines

However a text is cut into deltas, the streaming parser processes its lines, each without one carriage
return, and keeps the unterminated last line for `finish`.
-/

namespace Dcode.ApplyPatch

open Run List Except
open Str (trim trimEnd stripPrefix stripCr joinLines)

/-! ## What a line leaves alone -/

variable {p q : StreamingPatchParser}

theorem openHunk_some {trimmed : Str} {hunk : Hunk} {mode : StreamingParserMode}
    (h : openHunk p trimmed hunk mode = .ok (some q)) :
    ensureUpdateHunkIsNotEmpty p trimmed = .ok () ∧ q = { p with hunks := p.hunks ++ [hunk], mode := mode } := by
  obtain ⟨_, hens, hq⟩ := bind_eq_ok.mp h
  exact ⟨hens, (Option.some.inj (ok.inj hq)).symm⟩

/-- What a header line can do: set the environment id, end the patch or open a hunk. -/
theorem handleHunkHeadersAndEndPatch_some {trimmed : Str} (h : handleHunkHeadersAndEndPatch p trimmed = .ok (some q)) :
    (∃ id, p.mode = .startedPatch ∧ q = { p with environmentId := some id }) ∨
    (ensureUpdateHunkIsNotEmpty p trimmed = .ok () ∧ trimmed = endPatchMarker ∧ q = { p with mode := .endedPatch }) ∨
    (ensureUpdateHunkIsNotEmpty p trimmed = .ok () ∧ ∃ path, (trimmed = addFileMarker ++ path ∧
        q = { p with hunks := p.hunks ++ [.addFile path []], mode := .addFile }) ∨
      (trimmed = deleteFileMarker ++ path ∧
        q = { p with hunks := p.hunks ++ [.deleteFile path], mode := .deleteFile }) ∨
      (trimmed = updateFileMarker ++ path ∧
        q = { p with hunks := p.hunks ++ [.updateFile path none []],
                     mode := .updateFile p.lineNumber })) := by
  unfold handleHunkHeadersAndEndPatch at h
  split at h
  next id hid =>
    split at h
    · cases h
    · split at h
      · cases h
      · left
        refine ⟨trim id, ?_, (Option.some.inj (ok.inj h)).symm⟩
        unfold environmentIdOf at hid
        split at hid
        · assumption
        · cases hid
  · split at h
    next htrim =>
      obtain ⟨_, hens, hq⟩ := bind_eq_ok.mp h
      exact Or.inr (Or.inl ⟨hens, htrim, (Option.some.inj (ok.inj hq)).symm⟩)
    · right; right
      split at h
      next path hpath =>
        obtain ⟨hens, hq⟩ := openHunk_some h
        exact ⟨hens, path, Or.inl ⟨Str.stripPrefix_eq_some.mp hpath, hq⟩⟩
      · split at h
        next path hpath =>
          obtain ⟨hens, hq⟩ := openHunk_some h
          exact ⟨hens, path, Or.inr (Or.inl ⟨Str.stripPrefix_eq_some.mp hpath, hq⟩)⟩
        · split at h
          next path hpath =>
            obtain ⟨hens, hq⟩ := openHunk_some h
            exact ⟨hens, path, Or.inr (Or.inr ⟨Str.stripPrefix_eq_some.mp hpath, hq⟩)⟩
          · cases h

variable {line : Str}

/-- A line is a header, or it changes the last hunk, or it only changes the mode. -/
theorem processLine_cases (h : processLine p line = .ok q) :
    (∃ trimmed, handleHunkHeadersAndEndPatch p trimmed = .ok (some q)) ∨
    (∃ hunks mode, q = { p with hunks := hunks, mode := mode }) := by
  unfold processLine at h
  dsimp only at h
  split at h
  · split at h
    · exact Or.inr ⟨p.hunks, _, (ok.inj h).symm⟩
    · cases h
  · obtain ⟨r, hr, h⟩ := bind_eq_ok.mp h
    cases r with
    | none => cases h
    | some p' => exact Or.inl ⟨_, ok.inj h ▸ hr⟩
  · obtain ⟨r, hr, h⟩ := bind_eq_ok.mp h
    cases r with
    | none => cases h
    | some p' => exact Or.inl ⟨_, ok.inj h ▸ hr⟩
  · obtain ⟨r, hr, h⟩ := bind_eq_ok.mp h
    cases r with
    | none =>
      simp only [processAddLine] at h
      split at h
      · exact Or.inr ⟨_, p.mode, (ok.inj h).symm⟩
      · cases h
    | some p' => exact Or.inl ⟨_, ok.inj h ▸ hr⟩
  · obtain ⟨r, hr, h⟩ := bind_eq_ok.mp h
    cases r with
    | none =>
      simp only at h
      split at h
      · obtain ⟨r, _, h⟩ := bind_eq_ok.mp h
        exact Or.inr ⟨_, p.mode, (ok.inj h).symm⟩
      · cases h
    | some p' => exact Or.inl ⟨_, ok.inj h ▸ hr⟩
  · split at h
    · exact Or.inr ⟨p.hunks, p.mode, (ok.inj h).symm⟩
    · cases h

theorem processLine_frame (h : processLine p line = .ok q) :
    q.lineBuffer = p.lineBuffer ∧ q.lineNumber = p.lineNumber := by
  rcases processLine_cases h with ⟨t, ht⟩ | ⟨_, _, rfl⟩
  · rcases handleHunkHeadersAndEndPatch_some ht with
      ⟨_, _, rfl⟩ | ⟨_, _, rfl⟩ | ⟨_, _, ⟨_, rfl⟩ | ⟨_, rfl⟩ | ⟨_, rfl⟩⟩ <;> exact ⟨rfl, rfl⟩
  · exact ⟨rfl, rfl⟩

/-! ## Deltas -/

theorem foldlM_pushDelta (deltas : List Str) (p : StreamingPatchParser) :
    deltas.foldlM pushDelta p = pushDelta p deltas.flatten := by
  induction deltas generalizing p with
  | nil => rfl
  | cons d ds ih =>
    rw [foldlM_cons, flatten_cons, pushDelta, pushDelta, foldlM_append]
    exact congrArg _ (funext fun q => ih q)

/-- Only the text matters, not where it is cut. -/
theorem streamPatch_eq (deltas : List Str) : streamPatch deltas = (do finish (← pushDelta {} deltas.flatten)) := by
  rw [streamPatch, foldlM_pushDelta]

theorem pushDelta_noNewline (text : Str) (htext : '\n' ∉ text) (p : StreamingPatchParser) :
    pushDelta p text = .ok { p with lineBuffer := p.lineBuffer ++ text } := by
  induction text generalizing p with
  | nil => simp [pushDelta, pure, Except.pure]
  | cons c text ih =>
    have hc : c ≠ '\n' := fun h => htext (by simp [h])
    have ht : '\n' ∉ text := fun h => htext (mem_cons_of_mem _ h)
    have ih := ih ht { p with lineBuffer := p.lineBuffer ++ [c] }
    rw [pushDelta] at ih ⊢
    rw [foldlM_cons, pushChar, if_neg hc]
    simpa [bind, Except.bind] using ih

def lineStep (p : StreamingPatchParser) (line : Str) : Except ParseError StreamingPatchParser :=
  processLine { p with lineNumber := p.lineNumber + 1 } line

theorem lineStep_lineBuffer (h : lineStep p line = .ok q) : q.lineBuffer = p.lineBuffer :=
  (processLine_frame h).1

/-- The lines of a text go through the machine one by one; the last one stays in the buffer. -/
theorem pushDelta_joinLines (ls : List Str) (last : Str) (hls : ∀ l ∈ ls, '\n' ∉ l)
    (hlast : '\n' ∉ last) (p : StreamingPatchParser) (hp : p.lineBuffer = []) :
    pushDelta p (joinLines (ls ++ [last])) =
      (do let q ← (ls.map stripCr).foldlM lineStep p; return { q with lineBuffer := last }) := by
  induction ls generalizing p with
  | nil =>
    have h := pushDelta_noNewline last hlast p
    simpa [joinLines, hp, pure, Except.pure, bind, Except.bind] using h
  | cons l ls ih =>
    have hl : '\n' ∉ l := hls l mem_cons_self
    have hjoin : joinLines (l :: ls ++ [last]) = l ++ '\n' :: joinLines (ls ++ [last]) :=
      Str.joinLines_cons l (by simp)
    have hstep : pushChar { p with lineBuffer := p.lineBuffer ++ l } '\n' = lineStep p (stripCr l) := by
      obtain ⟨b, m, h, e, n⟩ := p
      subst hp
      rfl
    rw [hjoin, pushDelta, foldlM_append, ← pushDelta, pushDelta_noNewline l hl p]
    simp only [bind, Except.bind, foldlM_cons, map_cons]
    rw [hstep]
    cases hq : lineStep p (stripCr l) with
    | error e => rfl
    | ok q =>
      have hbuf : q.lineBuffer = [] := by rw [lineStep_lineBuffer hq, hp]
      exact ih (fun l hl => hls l (mem_cons_of_mem _ hl)) q hbuf

end Dcode.ApplyPatch
