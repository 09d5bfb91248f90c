import Dcode.StreamParser.InlineHiddenTag

/-!
# Blocks between tags on lines of their own

`TaggedLineParser` of `codex-rs/utils/stream-parser/src/tagged_line_parser.rs` and the proposed plans of
`proposed_plan.rs` over it.
-/

namespace Dcode.StreamParser

open Str (trimStart trimEnd)

structure TagSpec (T : Type) where
  opening : Str
  closing : Str
  tag : T
deriving DecidableEq

inductive TaggedLineSegment (T : Type) where
  | normal (text : Str)
  | tagStart (tag : T)
  | tagDelta (tag : T) (text : Str)
  | tagEnd (tag : T)
deriving DecidableEq

structure TaggedLineParser (T : Type) where
  specs : List (TagSpec T)
  activeTag : Option T := none
  detectTag : Bool := true
  lineBuffer : Str := []

section

variable {T : Type} [DecidableEq T]

def pushSegment (segments : List (TaggedLineSegment T)) : TaggedLineSegment T → List (TaggedLineSegment T)
  | .normal delta =>
    if delta.isEmpty then segments
    else match segments.getLast? with
      | some (.normal existing) => segments.dropLast ++ [.normal (existing ++ delta)]
      | _ => segments ++ [.normal delta]
  | .tagDelta tag delta =>
    if delta.isEmpty then segments
    else match segments.getLast? with
      | some (.tagDelta existingTag existing) =>
        if existingTag = tag then segments.dropLast ++ [.tagDelta tag (existing ++ delta)]
        else segments ++ [.tagDelta tag delta]
      | _ => segments ++ [.tagDelta tag delta]
  | segment => segments ++ [segment]

namespace TaggedLineParser

variable (self : TaggedLineParser T)

def pushText (text : Str) (segments : List (TaggedLineSegment T)) : List (TaggedLineSegment T) :=
  match self.activeTag with
  | some tag => pushSegment segments (.tagDelta tag text)
  | none => pushSegment segments (.normal text)

omit [DecidableEq T] in
def isTagPrefix (slug : Str) : Bool :=
  let slug := trimEnd slug
  self.specs.any fun spec => slug.isPrefixOf spec.opening || slug.isPrefixOf spec.closing

def matchOpen (slug : Str) : Option T :=
  (self.specs.find? fun spec => spec.opening == slug).map TagSpec.tag

def matchClose (slug : Str) : Option T :=
  (self.specs.find? fun spec => spec.closing == slug).map TagSpec.tag

/-- `str::strip_suffix` of a newline, where there is one. -/
def withoutNewline (line : Str) : Str := if line.getLast? = some '\n' then line.dropLast else line

/-- What a whole line does, in `finish_line` and in `finish`: it opens a tag, closes the active one, or is text. -/
def closeLine (segments : List (TaggedLineSegment T)) : TaggedLineParser T × List (TaggedLineSegment T) :=
  let line := self.lineBuffer
  let self := { self with lineBuffer := [] }
  let slug := trimEnd (trimStart (withoutNewline line))
  match self.activeTag, self.matchOpen slug, self.matchClose slug with
  | none, some tag, _ => ({ self with activeTag := some tag }, pushSegment segments (.tagStart tag))
  | some active, _, some tag =>
    if active = tag then ({ self with activeTag := none }, pushSegment segments (.tagEnd tag))
    else (self, self.pushText line segments)
  | _, _, _ => (self, self.pushText line segments)

def finishLine (segments : List (TaggedLineSegment T)) : TaggedLineParser T × List (TaggedLineSegment T) :=
  let (self, segments) := self.closeLine segments
  ({ self with detectTag := true }, segments)

def parseLoop : List Char → TaggedLineParser T → Str → List (TaggedLineSegment T) →
    TaggedLineParser T × List (TaggedLineSegment T)
  | [], self, run, segments => (self, if run.isEmpty then segments else self.pushText run segments)
  | ch :: rest, self, run, segments =>
    if self.detectTag then
      let segments := if run.isEmpty then segments else self.pushText run segments
      let self := { self with lineBuffer := self.lineBuffer ++ [ch] }
      if ch = '\n' then
        let (self, segments) := self.finishLine segments
        parseLoop rest self [] segments
      else
        let slug := trimStart self.lineBuffer
        if slug.isEmpty || self.isTagPrefix slug then parseLoop rest self [] segments
        else
          let buffered := self.lineBuffer
          let self := { self with lineBuffer := [], detectTag := false }
          parseLoop rest self [] (self.pushText buffered segments)
    else
      let run := run ++ [ch]
      if ch = '\n' then parseLoop rest { self with detectTag := true } [] (self.pushText run segments)
      else parseLoop rest self run segments

def parse (delta : Str) : TaggedLineParser T × List (TaggedLineSegment T) :=
  parseLoop delta self [] []

def finish : TaggedLineParser T × List (TaggedLineSegment T) :=
  let (self, segments) := if self.lineBuffer.isEmpty then (self, []) else self.closeLine []
  let segments :=
    match self.activeTag with
    | some tag => pushSegment segments (.tagEnd tag)
    | none => segments
  ({ self with activeTag := none, detectTag := true }, segments)

end TaggedLineParser

end

/-! ## Proposed plans -/

inductive PlanTag where
  | proposedPlan
deriving DecidableEq

inductive ProposedPlanSegment where
  | normal (text : Str)
  | proposedPlanStart
  | proposedPlanDelta (text : Str)
  | proposedPlanEnd
deriving DecidableEq

/-- The only spec of `ProposedPlanParser::new`. -/
def planSpec : TagSpec PlanTag where
  opening := "<proposed_plan>".toList
  closing := "</proposed_plan>".toList
  tag := .proposedPlan

structure ProposedPlanParser where
  inner : TaggedLineParser PlanTag := { specs := [planSpec] }

/-- The plan segment of a segment. -/
def planSegment : TaggedLineSegment PlanTag → ProposedPlanSegment
  | .normal text => .normal text
  | .tagStart .proposedPlan => .proposedPlanStart
  | .tagDelta .proposedPlan text => .proposedPlanDelta text
  | .tagEnd .proposedPlan => .proposedPlanEnd

/-- The text of a segment that stays visible. -/
def ProposedPlanSegment.visibleText : ProposedPlanSegment → Str
  | .normal text => text
  | _ => []

def mapSegments (segments : List (TaggedLineSegment PlanTag)) : StreamTextChunk ProposedPlanSegment where
  visibleText := (segments.map planSegment).flatMap ProposedPlanSegment.visibleText
  extracted := segments.map planSegment

def ProposedPlanParser.pushStr (self : ProposedPlanParser) (chunk : Str) :
    ProposedPlanParser × StreamTextChunk ProposedPlanSegment :=
  let (inner, segments) := self.inner.parse chunk
  ({ inner }, mapSegments segments)

def ProposedPlanParser.finish (self : ProposedPlanParser) : ProposedPlanParser × StreamTextChunk ProposedPlanSegment :=
  let (inner, segments) := self.inner.finish
  ({ inner }, mapSegments segments)

end Dcode.StreamParser
