import Dcode.StreamParser.InlineHiddenTag

/-!
# Hidden tags do not depend on chunks

With one kind of tag, the parser settles everything but the longest end of the text that may still become a
delimiter. Pushing a text in two chunks is then pushing it in one (`pushStr_append`).
-/

namespace Dcode.StreamParser

open List Option StreamTextChunk

open Str (find Held)

/-! ## Outputs one after the other -/

instance {E : Type} : Append (StreamTextChunk E) where
  append out out' := ⟨out.visibleText ++ out'.visibleText, out.extracted ++ out'.extracted⟩

theorem StreamTextChunk.append_eq {E : Type} (out out' : StreamTextChunk E) :
    out ++ out' = ⟨out.visibleText ++ out'.visibleText, out.extracted ++ out'.extracted⟩ := rfl

theorem StreamTextChunk.append_empty {E : Type} (out : StreamTextChunk E) : out ++ {} = out := by
  simp [append_eq]

/-! ## What is held back -/

/-- A search through decreasing numbers finds the greatest. -/
theorem find?_of_pairwise {l : List Nat} (hl : l.Pairwise (· > ·)) (p : Nat → Bool) :
    ((l.find? p).getD 0 = 0 ∨ (l.find? p).getD 0 ∈ l ∧ p ((l.find? p).getD 0)) ∧
      ∀ j ∈ l, p j → j ≤ (l.find? p).getD 0 := by
  induction l with
  | nil => simp
  | cons k l ih =>
    obtain ⟨hbelow, hl⟩ := pairwise_cons.mp hl
    rw [find?_cons]
    cases hk : p k with
    | true => exact ⟨.inr ⟨mem_cons_self, hk⟩, forall_mem_cons.mpr ⟨fun _ => Nat.le_refl _, fun j hj _ => (hbelow j hj).le⟩⟩
    | false =>
      obtain ⟨hfound, hmax⟩ := ih hl
      exact ⟨hfound.imp_right (.imp_left (mem_cons_of_mem _)), forall_mem_cons.mpr ⟨by simp [hk], hmax⟩⟩

theorem held_longestSuffixPrefixLen (s : Str) {needle : Str} (hne : needle ≠ []) :
    Held needle s (longestSuffixPrefixLen s needle) := by
  have hpos : 0 < needle.length := length_pos_iff.mpr hne
  have hsorted : (range' 1 (min s.length (needle.length - 1))).reverse.Pairwise (· > ·) := by
    rw [pairwise_reverse]
    exact pairwise_lt_range' 1 (by omega)
  obtain ⟨hfound, hmax⟩ := find?_of_pairwise hsorted fun k => (needle.take k).isSuffixOf s
  rw [← longestSuffixPrefixLen] at hfound hmax
  simp only [mem_reverse, mem_range'_1, isSuffixOf_iff_suffix] at hfound hmax
  refine ⟨by omega, ?_, fun j hj hend => ?_⟩
  · rcases hfound with hzero | ⟨_, hsuffix⟩
    · rw [hzero]
      exact nil_suffix
    · exact hsuffix
  · by_contra hlong
    have hle := hend.length_le
    rw [length_take_of_le hj.le] at hle
    exact hlong (hmax j (by omega) hend)

/-! ## One kind of tag -/

namespace InlineHiddenTagParser

variable {T : Type}

variable {self : InlineHiddenTagParser T} {spec : InlineTagSpec T}

theorem findNextOpen_singleton (h : self.specs = [spec]) :
    self.findNextOpen = (find spec.opening self.pending).map fun pos => (pos, spec) := by
  rw [findNextOpen, h]
  cases hfind : find spec.opening self.pending <;> simp [hfind]

theorem maxOpenPrefixSuffixLen_singleton (h : self.specs = [spec]) :
    self.maxOpenPrefixSuffixLen = longestSuffixPrefixLen self.pending spec.opening := by
  rw [maxOpenPrefixSuffixLen, h]
  simp

variable {s : Str}

/-- What `find` and `longest_suffix_prefix_len` say of a text that goes on, when nothing was found in it. -/
theorem search_append {needle : Str} (hne : needle ≠ []) (hnone : find needle s = none) (back : Str) :
    let settled := s.length - longestSuffixPrefixLen s needle
    find needle (s ++ back) = (find needle (s.drop settled ++ back)).map (· + settled) ∧
      longestSuffixPrefixLen (s ++ back) needle = longestSuffixPrefixLen (s.drop settled ++ back) needle := by
  have hheld := held_longestSuffixPrefixLen s hne
  refine ⟨hheld.find_append hnone back, ?_⟩
  exact (held_longestSuffixPrefixLen (s ++ back) hne).unique (hheld.append (held_longestSuffixPrefixLen _ hne))

/-! ### The steps of the loop -/

abbrev Pushed (T : Type) : Type := InlineHiddenTagParser T × StreamTextChunk (ExtractedInlineTag T)

/-- What the loop looks for: the end of the tag that is open, or the beginning of one. -/
def needle (spec : InlineTagSpec T) (p : Pushed T) : Str := p.1.active.elim spec.opening ActiveTag.closing

/-- The loop takes a text: it is content of the tag that is open, or visible. -/
def settle (text rest : Str) : Pushed T → Pushed T
  | (⟨specs, _, some active⟩, out) => (⟨specs, rest, some { active with content := active.content ++ text }⟩, out)
  | (⟨specs, _, none⟩, out) => (⟨specs, rest, none⟩, { out with visibleText := out.visibleText ++ text })

/-- The loop has found what it looks for: the tag ends, or one begins. -/
def toggle (spec : InlineTagSpec T) : Pushed T → Pushed T
  | (⟨specs, rest, some active⟩, out) =>
    (⟨specs, rest, none⟩, { out with extracted := out.extracted ++ [⟨active.tag, active.content⟩] })
  | (⟨specs, rest, none⟩, out) => (⟨specs, rest, some ⟨spec.tag, spec.closing, [], spec.closing_ne_nil⟩⟩, out)

/-- The loop, with a text that is already taken. -/
def pushFrom (text rest : Str) (p : Pushed T) : Pushed T := pushLoop (settle text rest p).1 (settle text rest p).2

def Pushed.after (before : StreamTextChunk (ExtractedInlineTag T)) (p : Pushed T) : Pushed T := (p.1, before ++ p.2)

section

variable (text rest : Str) (before : StreamTextChunk (ExtractedInlineTag T)) (p : Pushed T)

theorem needle_ne_nil : needle spec p ≠ [] := by
  obtain ⟨⟨specs, pending, _ | active⟩, out⟩ := p
  · exact spec.opening_ne_nil
  · exact active.closing_ne_nil

theorem settle_settle (text' rest' : Str) : settle text' rest' (settle text rest p) = settle (text ++ text') rest' p := by
  obtain ⟨⟨specs, pending, _ | active⟩, out⟩ := p <;> simp [settle]

theorem settle_pending : (settle text rest p).1.pending = rest := by
  obtain ⟨⟨specs, pending, _ | active⟩, out⟩ := p <;> rfl

theorem toggle_settle_specs : (toggle spec (settle text rest p)).1.specs = p.1.specs := by
  obtain ⟨⟨specs, pending, _ | active⟩, out⟩ := p <;> rfl

theorem settle_after : settle text rest (p.after before) = (settle text rest p).after before := by
  obtain ⟨⟨specs, pending, _ | active⟩, out⟩ := p <;> simp [settle, Pushed.after, StreamTextChunk.append_eq]

theorem toggle_after : toggle spec (p.after before) = (toggle spec p).after before := by
  obtain ⟨⟨specs, pending, _ | active⟩, out⟩ := p <;> simp [toggle, Pushed.after, StreamTextChunk.append_eq]

end

section

variable {p : Pushed T} (hspec : p.1.specs = [spec]) {rest : Str} (text : Str)

include hspec

theorem pushFrom_found {i : Nat} (hfind : find (needle spec p) rest = some i) :
    pushFrom text rest p = pushFrom [] (rest.drop (i + (needle spec p).length))
      (toggle spec (settle (text ++ rest.take i) [] p)) := by
  obtain ⟨⟨specs, pending, _ | active⟩, out⟩ := p
  · obtain rfl : specs = [spec] := hspec
    have hnext : (⟨[spec], rest, none⟩ : InlineHiddenTagParser T).findNextOpen = some (i, spec) := by
      rw [findNextOpen_singleton rfl]
      exact congrArg (Option.map _) hfind
    simp only [pushFrom, settle]
    rw [pushLoop]
    simp only
    split
    next j spec' hj =>
      obtain ⟨rfl, rfl⟩ := Prod.mk.inj (some.inj (hj.symm.trans hnext))
      simp [toggle, needle]
    next hj => rw [hnext] at hj; cases hj
  · simp only [pushFrom, settle]
    rw [pushLoop]
    simp only
    split
    next j hj =>
      obtain rfl := some.inj (hj.symm.trans hfind)
      simp [toggle, needle]
    next hj => cases hj.symm.trans hfind

theorem pushFrom_held (hfind : find (needle spec p) rest = none) :
    let settled := rest.length - longestSuffixPrefixLen rest (needle spec p)
    pushFrom text rest p = settle (text ++ rest.take settled) (rest.drop settled) p := by
  obtain ⟨⟨specs, pending, _ | active⟩, out⟩ := p
  · obtain rfl : specs = [spec] := hspec
    have hnext : (⟨[spec], rest, none⟩ : InlineHiddenTagParser T).findNextOpen = none := by
      rw [findNextOpen_singleton rfl]
      exact congrArg (Option.map _) hfind
    simp only [pushFrom, settle]
    rw [pushLoop]
    simp only
    split
    next hj => cases hj.symm.trans hnext
    next => simp [needle, maxOpenPrefixSuffixLen_singleton]
  · simp only [pushFrom, settle]
    rw [pushLoop]
    simp only
    split
    next hj => cases hj.symm.trans hfind
    next => simp [needle]

end

/-! ### Going on with the text -/

theorem take_append_settled {settled : Nat} (h : settled ≤ s.length) (back : Str) (i : Nat) :
    (s ++ back).take (i + settled) = s.take settled ++ (s.drop settled ++ back).take i := by
  have hlen : (s.take settled).length = settled := length_take_of_le h
  nth_rewrite 1 [← take_append_drop settled s]
  rw [append_assoc, take_append, take_of_length_le (by omega)]
  congr 2
  omega

theorem drop_append_settled {settled : Nat} (h : settled ≤ s.length) (back : Str) (i : Nat) :
    (s ++ back).drop (i + settled) = (s.drop settled ++ back).drop i := by
  rw [Nat.add_comm, ← drop_drop, drop_append_of_le_length h]

/-- What is taken of a text that goes on, when nothing is found in it either. -/
theorem take_length_append {needle : Str} (hne : needle ≠ []) (hnone : find needle s = none) (back : Str) :
    let settled := s.length - longestSuffixPrefixLen s needle
    let rest := s.drop settled ++ back
    (s ++ back).length - longestSuffixPrefixLen (s ++ back) needle =
      rest.length - longestSuffixPrefixLen rest needle + settled := by
  intro settled rest
  have hkeep : longestSuffixPrefixLen (s ++ back) needle = longestSuffixPrefixLen rest needle :=
    (search_append hne hnone back).2
  have hle := (held_longestSuffixPrefixLen rest hne).le
  have hlen : rest.length + settled = (s ++ back).length := by
    simp only [rest, length_append, length_drop]
    omega
  omega

/-- When nothing is found the loop goes on behind what it has settled. -/
theorem pushFrom_settled {p : Pushed T} (hspec : p.1.specs = [spec]) {rest : Str} (hfind : find (needle spec p) rest = none)
    (text back : Str) :
    let settled := rest.length - longestSuffixPrefixLen rest (needle spec p)
    pushFrom (text ++ rest.take settled) (rest.drop settled ++ back) p = pushFrom text (rest ++ back) p := by
  intro settled
  have hne := @needle_ne_nil T spec p
  have hsearch : find (needle spec p) (rest ++ back) = _ := (search_append hne hfind back).1
  have hle : settled ≤ rest.length := Nat.sub_le _ _
  cases hrest : find (needle spec p) (rest.drop settled ++ back) with
  | some i =>
    rw [hrest] at hsearch
    rw [pushFrom_found hspec _ hrest, pushFrom_found hspec _ hsearch, take_append_settled hle, append_assoc,
      Nat.add_right_comm i settled, drop_append_settled hle]
  | none =>
    rw [hrest] at hsearch
    rw [pushFrom_held hspec _ hrest, pushFrom_held hspec _ hsearch, take_length_append hne hfind,
      take_append_settled hle, append_assoc, drop_append_settled hle]

/-- A text that goes on can be pushed from where the loop stands. -/
theorem pushFrom_append {p : Pushed T} (hspec : p.1.specs = [spec]) (text rest back : Str) :
    pushFrom [] ((pushFrom text rest p).1.pending ++ back) (pushFrom text rest p) = pushFrom text (rest ++ back) p := by
  induction hlen : rest.length using Nat.strong_induction_on generalizing p text rest with
  | _ n ih =>
    cases hfind : find (needle spec p) rest with
    | some i =>
      have hle := Str.le_of_find hfind
      have hpos := length_pos_iff.mpr (@needle_ne_nil T spec p)
      rw [pushFrom_found hspec _ hfind, pushFrom_found hspec _ (Str.find_append_of_find hfind back),
        ih _ _ (by rw [toggle_settle_specs]; exact hspec) _ _ rfl, drop_append_of_le_length hle,
        take_append_of_le_length (by omega)]
      rw [length_drop]
      omega
    | none =>
      rw [pushFrom_held hspec _ hfind, settle_pending, pushFrom, settle_settle, append_nil, ← pushFrom]
      exact pushFrom_settled hspec hfind text back

theorem pushFrom_after {p : Pushed T} (hspec : p.1.specs = [spec]) (text rest : Str)
    (before : StreamTextChunk (ExtractedInlineTag T)) :
    pushFrom text rest (p.after before) = (pushFrom text rest p).after before := by
  induction hlen : rest.length using Nat.strong_induction_on generalizing p text rest with
  | _ n ih =>
    have hneedle : needle spec (p.after before) = needle spec p := rfl
    cases hfind : find (needle spec p) rest with
    | some i =>
      have hle := Str.le_of_find hfind
      have hpos := length_pos_iff.mpr (@needle_ne_nil T spec p)
      rw [pushFrom_found hspec _ hfind, pushFrom_found (p := p.after before) hspec _ hfind, settle_after, toggle_after, hneedle,
        ih _ _ (by rw [toggle_settle_specs]; exact hspec) _ _ rfl]
      rw [length_drop]
      omega
    | none => rw [pushFrom_held hspec _ hfind, pushFrom_held (p := p.after before) hspec _ hfind, settle_after, hneedle]

theorem pushLoop_specs (self : InlineHiddenTagParser T) (out : StreamTextChunk (ExtractedInlineTag T)) :
    (pushLoop self out).1.specs = self.specs := by
  fun_induction pushLoop self out with
  | case1 | case3 => assumption
  | case2 | case4 => rfl

theorem pushStr_eq (chunk : Str) : self.pushStr chunk = pushFrom [] (self.pending ++ chunk) (self, {}) := by
  obtain ⟨specs, pending, _ | active⟩ := self <;> simp [pushStr, pushFrom, settle]

theorem pushStr_append (hspec : self.specs = [spec]) (front back : Str) : self.pushStr (front ++ back) =
      (((self.pushStr front).1.pushStr back).1, (self.pushStr front).2 ++ ((self.pushStr front).1.pushStr back).2) := by
  have happend := @pushFrom_append T spec (self, {}) hspec [] (self.pending ++ front) back
  rw [← pushStr_eq, append_assoc, ← pushStr_eq] at happend
  have hspecs : (self.pushStr front).1.specs = [spec] := (pushLoop_specs _ _).trans hspec
  have hafter := @pushFrom_after T spec ((self.pushStr front).1, {}) hspecs [] ((self.pushStr front).1.pending ++ back)
    (self.pushStr front).2
  rw [← pushStr_eq, Pushed.after, append_empty] at hafter
  exact happend.symm.trans hafter

end InlineHiddenTagParser

end Dcode.StreamParser
