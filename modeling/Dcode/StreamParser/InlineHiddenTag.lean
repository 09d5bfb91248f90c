import Dcode.Lib.StreamSearch

/-!
# Inline tags that are hidden

`InlineHiddenTagParser` of `codex-rs/utils/stream-parser/src/inline_hidden_tag.rs` and the citations of `citation.rs` over
it. Positions count characters where the source counts bytes; they are only used to cut the text where it was
searched.
-/

namespace Dcode.StreamParser

open Str (find byteLen)

structure StreamTextChunk (E : Type) where
  visibleText : Str := []
  extracted : List E := []
deriving DecidableEq

def StreamTextChunk.isEmpty {E : Type} (chunk : StreamTextChunk E) : Bool :=
  chunk.visibleText.isEmpty && chunk.extracted.isEmpty

structure ExtractedInlineTag (T : Type) where
  tag : T
  content : Str
deriving DecidableEq

structure InlineTagSpec (T : Type) where
  tag : T
  opening : Str
  closing : Str
  opening_ne_nil : opening ≠ []
  closing_ne_nil : closing ≠ []

structure ActiveTag (T : Type) where
  tag : T
  closing : Str
  content : Str
  closing_ne_nil : closing ≠ []

structure InlineHiddenTagParser (T : Type) where
  specs : List (InlineTagSpec T)
  pending : Str := []
  active : Option (ActiveTag T) := none

def longestSuffixPrefixLen (s needle : Str) : Nat :=
  let max := min s.length (needle.length - 1)
  ((List.range' 1 max).reverse.find? fun k => (needle.take k).isSuffixOf s).getD 0

namespace InlineHiddenTagParser

variable {T : Type}

/-- The order of `find_next_open`: the first position, the longer delimiter, the first of the specs. -/
def opensBefore (a b : Nat × InlineTagSpec T) : Bool :=
  a.1 < b.1 || (a.1 == b.1 && byteLen b.2.opening < byteLen a.2.opening)

variable (self : InlineHiddenTagParser T)

def findNextOpen : Option (Nat × InlineTagSpec T) :=
  let candidates := self.specs.filterMap fun spec =>
    (find spec.opening self.pending).map fun pos => (pos, spec)
  candidates.foldl (fun best candidate =>
    match best with
    | some best => if opensBefore candidate best then some candidate else some best
    | none => some candidate) none

def maxOpenPrefixSuffixLen : Nat :=
  (self.specs.map fun spec => longestSuffixPrefixLen self.pending spec.opening).foldl max 0

theorem mem_of_foldl_opensBefore {candidates : List (Nat × InlineTagSpec T)} {best : Option (Nat × InlineTagSpec T)}
    {found : Nat × InlineTagSpec T}
    (h : candidates.foldl (fun best candidate =>
      match best with
      | some best => if opensBefore candidate best then some candidate else some best
      | none => some candidate) best = some found) : found ∈ candidates ∨ best = some found := by
  induction candidates generalizing best with
  | nil => exact .inr h
  | cons candidate candidates ih =>
    rcases ih h with hmem | hbest
    · exact .inl (List.mem_cons_of_mem _ hmem)
    · cases best with
      | none => exact .inl (by rw [Option.some.inj hbest]; exact List.mem_cons_self)
      | some best =>
        dsimp only at hbest
        split at hbest
        · exact .inl (by rw [Option.some.inj hbest]; exact List.mem_cons_self)
        · exact .inr hbest

theorem le_of_findNextOpen {self : InlineHiddenTagParser T} {pos : Nat} {spec : InlineTagSpec T}
    (h : self.findNextOpen = some (pos, spec)) : pos + spec.opening.length ≤ self.pending.length := by
  rcases mem_of_foldl_opensBefore h with hmem | hnone
  · obtain ⟨spec', -, hfind⟩ := List.mem_filterMap.mp hmem
    obtain ⟨pos', hpos, heq⟩ := Option.map_eq_some_iff.mp hfind
    obtain ⟨rfl, rfl⟩ := Prod.mk.inj heq
    exact Str.le_of_find hpos
  · cases hnone

/-- The loop of `InlineHiddenTagParser::push_str`. -/
def pushLoop (self : InlineHiddenTagParser T) (out : StreamTextChunk (ExtractedInlineTag T)) :
    InlineHiddenTagParser T × StreamTextChunk (ExtractedInlineTag T) :=
  match self.active with
  | some active =>
    match _hclose : find active.closing self.pending with
    | some closeIdx =>
      pushLoop
        { self with
          pending := self.pending.drop (closeIdx + active.closing.length)
          active := none }
        { out with
          extracted := out.extracted ++ [⟨active.tag, active.content ++ self.pending.take closeIdx⟩] }
    | none =>
      let keep := longestSuffixPrefixLen self.pending active.closing
      let take := self.pending.length - keep
      ({ self with
          pending := self.pending.drop take
          active := some { active with content := active.content ++ self.pending.take take } }, out)
  | none =>
    match _hopen : self.findNextOpen with
    | some (openIdx, spec) =>
      pushLoop
        { self with
          pending := self.pending.drop (openIdx + spec.opening.length)
          active := some ⟨spec.tag, spec.closing, [], spec.closing_ne_nil⟩ }
        { out with visibleText := out.visibleText ++ self.pending.take openIdx }
    | none =>
      let keep := self.maxOpenPrefixSuffixLen
      let take := self.pending.length - keep
      ({ self with pending := self.pending.drop take },
        { out with visibleText := out.visibleText ++ self.pending.take take })
termination_by self.pending.length
decreasing_by
  · have hle := Str.le_of_find _hclose
    have hpos := List.length_pos_iff.mpr active.closing_ne_nil
    simp only [List.length_drop]
    omega
  · have hle := le_of_findNextOpen _hopen
    have hpos := List.length_pos_iff.mpr spec.opening_ne_nil
    simp only [List.length_drop]
    omega

def pushStr (chunk : Str) : InlineHiddenTagParser T × StreamTextChunk (ExtractedInlineTag T) :=
  pushLoop { self with pending := self.pending ++ chunk } {}

def finish : InlineHiddenTagParser T × StreamTextChunk (ExtractedInlineTag T) :=
  match self.active with
  | some active =>
    ({ self with pending := [], active := none },
      { extracted := [⟨active.tag, active.content ++ self.pending⟩] })
  | none => ({ self with pending := [] }, { visibleText := self.pending })

end InlineHiddenTagParser

/-! ## Citations -/

inductive CitationTag where
  | citation
deriving DecidableEq

/-- The only spec of `CitationStreamParser::new`. -/
def citationSpec : InlineTagSpec CitationTag where
  tag := .citation
  opening := "<oai-mem-citation>".toList
  closing := "</oai-mem-citation>".toList
  opening_ne_nil := by decide +kernel
  closing_ne_nil := by decide +kernel

structure CitationStreamParser where
  inner : InlineHiddenTagParser CitationTag := { specs := [citationSpec] }

/-- The bodies of the citations, without their tag. -/
def citationChunk (inner : StreamTextChunk (ExtractedInlineTag CitationTag)) : StreamTextChunk Str where
  visibleText := inner.visibleText
  extracted := inner.extracted.map ExtractedInlineTag.content

def CitationStreamParser.pushStr (self : CitationStreamParser) (chunk : Str) :
    CitationStreamParser × StreamTextChunk Str :=
  let (inner, out) := self.inner.pushStr chunk
  ({ inner }, citationChunk out)

def CitationStreamParser.finish (self : CitationStreamParser) : CitationStreamParser × StreamTextChunk Str :=
  let (inner, out) := self.inner.finish
  ({ inner }, citationChunk out)

end Dcode.StreamParser
