import Dcode.StreamParser.AssistantText
import Dcode.StreamParser.Proofs.InlineHiddenTagProofs
import Dcode.StreamParser.Proofs.TaggedLineProofs

/-!
# Assistant text does not depend on chunks

A push of two chunks as one leaves the same state and gives the same output up to merging (`pushStr_append`), so the
chunks of a run can be joined one by one.
-/

namespace Dcode.StreamParser

open List ProposedPlanSegment

/-! ## Plan segments -/

theorem map_planSegment_mergeSegment (segment : TaggedLineSegment PlanTag) (rest : List (TaggedLineSegment PlanTag)) :
    (mergeSegment segment rest).map planSegment = mergePlanSegment (planSegment segment) (rest.map planSegment) := by
  rcases segment with _ | ⟨⟨⟩⟩ | ⟨⟨⟩, _⟩ | ⟨⟨⟩⟩ <;> rcases rest with _ | ⟨_ | ⟨⟨⟩⟩ | ⟨⟨⟩, _⟩ | ⟨⟨⟩⟩, rest⟩ <;> rfl

theorem map_planSegment_mergeSegments (segments rest : List (TaggedLineSegment PlanTag)) :
    (mergeSegments segments rest).map planSegment =
      (segments.map planSegment).foldr mergePlanSegment (rest.map planSegment) := by
  induction segments with
  | nil => rfl
  | cons segment segments ih =>
    rw [map_cons, foldr_cons, ← ih]
    exact map_planSegment_mergeSegment segment _

theorem visibleText_mergePlanSegments (segments : List ProposedPlanSegment) :
    (mergePlanSegments segments).flatMap visibleText = segments.flatMap visibleText := by
  have hstep : ∀ segment rest, (mergePlanSegment segment rest).flatMap visibleText =
      segment.visibleText ++ rest.flatMap visibleText := by
    intro segment rest
    rcases segment with _ | _ | _ | _ <;> rcases rest with _ | ⟨_ | _ | _ | _, rest⟩ <;>
      simp [mergePlanSegment, visibleText]
  induction segments with
  | nil => rfl
  | cons segment segments ih =>
    rw [flatMap_cons, ← ih]
    exact hstep segment _

theorem planSegment_surjective : Function.Surjective planSegment
  | .normal text => ⟨.normal text, rfl⟩
  | .proposedPlanStart => ⟨.tagStart .proposedPlan, rfl⟩
  | .proposedPlanDelta text => ⟨.tagDelta .proposedPlan text, rfl⟩
  | .proposedPlanEnd => ⟨.tagEnd .proposedPlan, rfl⟩

theorem foldr_mergePlanSegment_parse_append (self : TaggedLineParser PlanTag) (front back : Str)
    (rest : List ProposedPlanSegment) :
    ((self.parse (front ++ back)).2.map planSegment).foldr mergePlanSegment rest =
      (((self.parse front).2 ++ ((self.parse front).1.parse back).2).map planSegment).foldr mergePlanSegment rest := by
  obtain ⟨rest', rfl⟩ := List.map_surjective_iff.mpr planSegment_surjective rest
  rw [← map_planSegment_mergeSegments, self.mergeSegments_parse_append, map_planSegment_mergeSegments]

/-! ## Two chunks as one -/

/-- An output that stands for two outputs, one after the other. -/
structure Joins (out front back : AssistantTextChunk) : Prop where
  visibleText : out.visibleText = front.visibleText ++ back.visibleText
  citations : out.citations = front.citations ++ back.citations
  planSegments : ∀ rest, out.planSegments.foldr mergePlanSegment rest =
    (front.planSegments ++ back.planSegments).foldr mergePlanSegment rest

/-- An output that stands for two others can take their place in a run. -/
theorem Joins.joinChunks_eq {out front back : AssistantTextChunk} (h : Joins out front back)
    (chunks : List AssistantTextChunk) : joinChunks (front :: back :: chunks) = joinChunks (out :: chunks) := by
  have hplan : mergePlanSegments ((front :: back :: chunks).flatMap AssistantTextChunk.planSegments) =
      mergePlanSegments ((out :: chunks).flatMap AssistantTextChunk.planSegments) := by
    simp [mergePlanSegments, h.planSegments]
  rw [joinChunks, joinChunks, hplan]
  simp [h.visibleText, h.citations]

theorem CitationStreamParser.pushStr_append {self : CitationStreamParser} (hspecs : self.inner.specs = [citationSpec])
    (front back : Str) :
    self.pushStr (front ++ back) =
      (((self.pushStr front).1.pushStr back).1, (self.pushStr front).2 ++ ((self.pushStr front).1.pushStr back).2) := by
  simp [pushStr, InlineHiddenTagParser.pushStr_append hspecs, citationChunk, StreamTextChunk.append_eq]

namespace AssistantTextStreamParser

variable (self : AssistantTextStreamParser)

theorem parseVisibleText_append (front back : Str) :
    let first := self.parseVisibleText front
    let second := first.1.parseVisibleText back
    (self.parseVisibleText (front ++ back)).1 = second.1 ∧
      Joins (self.parseVisibleText (front ++ back)).2 first.2 second.2 := by
  cases hmode : self.planMode with
  | false =>
    simp only [parseVisibleText, hmode, Bool.false_eq_true, if_false]
    exact ⟨trivial, rfl, rfl, fun rest => rfl⟩
  | true =>
    have hmerge := foldr_mergePlanSegment_parse_append self.plan.inner front back
    simp only [parseVisibleText, hmode, if_true, ProposedPlanParser.pushStr, self.plan.inner.parse_append_fst]
    refine ⟨trivial, ?_, rfl, fun rest => ?_⟩
    · simp only [mapSegments]
      rw [← visibleText_mergePlanSegments, mergePlanSegments, hmerge, ← flatMap_append, ← map_append]
      exact visibleText_mergePlanSegments _
    · simp [mapSegments, hmerge]

theorem parseVisibleText_citations (citations : CitationStreamParser) (text : Str) :
    { self with citations }.parseVisibleText text =
      ({ (self.parseVisibleText text).1 with citations }, (self.parseVisibleText text).2) := by
  cases hmode : self.planMode <;> simp [parseVisibleText, hmode]

/-- What a push does: the citations are taken out, the rest is parsed. -/
theorem pushStr_eq (chunk : Str) : self.pushStr chunk =
      let citations := self.citations.pushStr chunk
      let visible := self.parseVisibleText citations.2.visibleText
      ({ visible.1 with citations := citations.1 }, { visible.2 with citations := citations.2.extracted }) := by
  simp [pushStr, parseVisibleText_citations]

variable {self : AssistantTextStreamParser}

section

variable (hspecs : self.citations.inner.specs = [citationSpec])

include hspecs

theorem pushStr_append (front back : Str) :
    let first := self.pushStr front
    let second := first.1.pushStr back
    (self.pushStr (front ++ back)).1 = second.1 ∧ Joins (self.pushStr (front ++ back)).2 first.2 second.2 := by
  have hcitations := CitationStreamParser.pushStr_append hspecs front back
  obtain ⟨hstate, hjoins⟩ := self.parseVisibleText_append (self.citations.pushStr front).2.visibleText
    ((self.citations.pushStr front).1.pushStr back).2.visibleText
  simp only [pushStr_eq, hcitations, parseVisibleText_citations, StreamTextChunk.append_eq, hstate]
  exact ⟨trivial, hjoins.visibleText, rfl, hjoins.planSegments⟩

theorem joinChunks_parseChunks_append (front back : Str) (chunks : List Str) :
    joinChunks (self.parseChunks (front :: back :: chunks)) = joinChunks (self.parseChunks ((front ++ back) :: chunks)) := by
  obtain ⟨hstate, hjoins⟩ := pushStr_append hspecs front back
  simp only [parseChunks, hstate]
  exact hjoins.joinChunks_eq _

/-- A run gives what its chunks give as one. -/
theorem joinChunks_parseChunks_cons (chunk : Str) (chunks : List Str) :
    joinChunks (self.parseChunks (chunk :: chunks)) = joinChunks (self.parseChunks [chunk ++ chunks.flatten]) := by
  induction chunks generalizing chunk with
  | nil => rw [flatten_nil, append_nil]
  | cons next chunks ih =>
    rw [joinChunks_parseChunks_append hspecs, ih, flatten_cons, append_assoc]

end

theorem pushStr_nil (planMode : Bool) : pushStr { planMode } [] = ({ planMode }, {}) := by
  have hinner : InlineHiddenTagParser.pushStr { specs := [citationSpec] } [] = ({ specs := [citationSpec] }, {}) := by
    rw [InlineHiddenTagParser.pushStr_eq, @InlineHiddenTagParser.pushFrom_held _ citationSpec _ rfl _ _ (by decide +kernel)]
    rfl
  have hcitations : CitationStreamParser.pushStr {} [] = ({}, {}) := by
    rw [CitationStreamParser.pushStr, hinner]
    rfl
  rw [pushStr, hcitations]
  cases planMode <;> rfl

/-- Parsing does not depend on how the text is chunked. -/
theorem joinChunks_parseChunks_eq (planMode : Bool) (chunks : List Str) :
    joinChunks (parseChunks { planMode } chunks) = joinChunks (parseChunks { planMode } [chunks.flatten]) := by
  cases chunks with
  | nil =>
    -- no chunk at all gives what an empty one gives
    rw [flatten_nil, parseChunks, parseChunks, pushStr_nil]
    rfl
  | cons chunk chunks => exact joinChunks_parseChunks_cons rfl chunk chunks

end AssistantTextStreamParser

end Dcode.StreamParser
