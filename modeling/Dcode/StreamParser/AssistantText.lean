import Dcode.StreamParser.TaggedLine

/-!
# Assistant text

`AssistantTextStreamParser` of `codex-rs/utils/stream-parser/src/assistant_text.rs`: citations are taken out of the text,
and in plan mode what is left is split into plan blocks and normal text.
-/

namespace Dcode.StreamParser

structure AssistantTextChunk where
  visibleText : Str := []
  citations : List Str := []
  planSegments : List ProposedPlanSegment := []
deriving DecidableEq

structure AssistantTextStreamParser where
  planMode : Bool
  citations : CitationStreamParser := {}
  plan : ProposedPlanParser := {}

namespace AssistantTextStreamParser

def parseVisibleText (self : AssistantTextStreamParser) (visibleText : Str) :
    AssistantTextStreamParser × AssistantTextChunk :=
  if self.planMode then
    let (plan, planChunk) := self.plan.pushStr visibleText
    ({ self with plan }, { visibleText := planChunk.visibleText, planSegments := planChunk.extracted })
  else (self, { visibleText })

def pushStr (self : AssistantTextStreamParser) (chunk : Str) : AssistantTextStreamParser × AssistantTextChunk :=
  let (citations, citationChunk) := self.citations.pushStr chunk
  let (self, out) := { self with citations }.parseVisibleText citationChunk.visibleText
  (self, { out with citations := citationChunk.extracted })

def finish (self : AssistantTextStreamParser) : AssistantTextStreamParser × AssistantTextChunk :=
  let (citations, citationChunk) := self.citations.finish
  let (self, out) := { self with citations }.parseVisibleText citationChunk.visibleText
  let (self, out) :=
    if self.planMode then
      let (plan, tail) := self.plan.finish
      ({ self with plan },
        if tail.isEmpty then out
        else { out with
          visibleText := out.visibleText ++ tail.visibleText
          planSegments := out.planSegments ++ tail.extracted })
    else (self, out)
  (self, { out with citations := citationChunk.extracted })

/-- What the parser gives for a text in chunks: the chunks it returns for each of them, and at the end. -/
def parseChunks (self : AssistantTextStreamParser) : List Str → List AssistantTextChunk
  | [] => [self.finish.2]
  | chunk :: rest =>
    let (self, out) := self.pushStr chunk
    out :: self.parseChunks rest

end AssistantTextStreamParser

/-! ## What a whole run gives -/

/-- A plan segment in front of others, merged with the first of them where both are normal texts or plan deltas. -/
def mergePlanSegment : ProposedPlanSegment → List ProposedPlanSegment → List ProposedPlanSegment
  | .normal text, .normal text' :: rest => .normal (text ++ text') :: rest
  | .proposedPlanDelta text, .proposedPlanDelta text' :: rest => .proposedPlanDelta (text ++ text') :: rest
  | segment, rest => segment :: rest

/-- The plan segments with adjacent normal texts and adjacent plan deltas merged. -/
def mergePlanSegments (segments : List ProposedPlanSegment) : List ProposedPlanSegment :=
  segments.foldr mergePlanSegment []

/-- The chunks of a run as one: the visible text and the citations one after the other, the plan segments merged. -/
def joinChunks (chunks : List AssistantTextChunk) : AssistantTextChunk where
  visibleText := chunks.flatMap AssistantTextChunk.visibleText
  citations := chunks.flatMap AssistantTextChunk.citations
  planSegments := mergePlanSegments (chunks.flatMap AssistantTextChunk.planSegments)

end Dcode.StreamParser
