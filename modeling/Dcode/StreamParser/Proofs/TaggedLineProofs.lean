import Dcode.StreamParser.TaggedLine

/-!
# Tagged lines do not depend on chunks

Segments are compared up to merging adjacent texts of one kind. Up to that, the loop of `parse`, which collects the
text of a line in a run, gives what a parser gives that pushes every character on its own (`parseLoop_eq`), and such
a parser does not see where a chunk ends.
-/

namespace Dcode.StreamParser

open List TaggedLineParser

open Str (trimStart)

variable {T : Type} [DecidableEq T]

/-! ## Merging adjacent texts -/

/-- A segment in front of segments, merged with the first of them where both are texts of one kind. -/
def mergeSegment : TaggedLineSegment T → List (TaggedLineSegment T) → List (TaggedLineSegment T)
  | .normal text, .normal text' :: rest => .normal (text ++ text') :: rest
  | .tagDelta tag text, .tagDelta tag' text' :: rest =>
    if tag = tag' then .tagDelta tag (text ++ text') :: rest else .tagDelta tag text :: .tagDelta tag' text' :: rest
  | segment, rest => segment :: rest

def mergeSegments (segments rest : List (TaggedLineSegment T)) : List (TaggedLineSegment T) :=
  segments.foldr mergeSegment rest

theorem mergeSegments_append (segments segments' rest : List (TaggedLineSegment T)) :
    mergeSegments (segments ++ segments') rest = mergeSegments segments (mergeSegments segments' rest) :=
  foldr_append

theorem mergeSegment_normal_append (text text' : Str) (rest : List (TaggedLineSegment T)) :
    mergeSegment (.normal (text ++ text')) rest = mergeSegment (.normal text) (mergeSegment (.normal text') rest) := by
  rcases rest with _ | ⟨_ | _ | _ | _, rest⟩ <;> simp [mergeSegment]

theorem mergeSegment_tagDelta_append (tag : T) (text text' : Str) (rest : List (TaggedLineSegment T)) :
    mergeSegment (.tagDelta tag (text ++ text')) rest =
      mergeSegment (.tagDelta tag text) (mergeSegment (.tagDelta tag text') rest) := by
  rcases rest with _ | ⟨_ | _ | ⟨tag', text''⟩ | _, rest⟩
  case cons.tagDelta =>
    by_cases htag : tag = tag'
    · simp [mergeSegment, htag]
    · simp [mergeSegment, htag]
  all_goals simp [mergeSegment]

variable (self : TaggedLineParser T)

theorem mergeSegments_pushText {text : Str} (hne : text ≠ []) (segments rest : List (TaggedLineSegment T)) :
    mergeSegments (self.pushText text segments) rest =
      mergeSegments segments (mergeSegments (self.pushText text []) rest) := by
  rcases eq_nil_or_concat segments with rfl | ⟨init, last, rfl⟩
  · rfl
  · cases hactive : self.activeTag with
    | none =>
      cases last with
      | normal existing =>
        simp [pushText, hactive, pushSegment, hne, mergeSegments, mergeSegment_normal_append]
      | _ => simp [pushText, hactive, pushSegment, hne, mergeSegments]
    | some tag =>
      cases last with
      | tagDelta existingTag existing =>
        by_cases htag : existingTag = tag
        · subst htag
          simp [pushText, hactive, pushSegment, hne, mergeSegments, mergeSegment_tagDelta_append]
        · simp [pushText, hactive, pushSegment, hne, mergeSegments, htag]
      | _ => simp [pushText, hactive, pushSegment, hne, mergeSegments]

/-- A text in two parts is pushed like its parts. -/
theorem mergeSegments_pushText_append {front back : Str} (hfront : front ≠ [])
    (hback : back ≠ []) (rest : List (TaggedLineSegment T)) :
    mergeSegments (self.pushText (front ++ back) []) rest =
      mergeSegments (self.pushText front []) (mergeSegments (self.pushText back []) rest) := by
  cases hactive : self.activeTag with
  | none =>
    simp [pushText, hactive, pushSegment, hfront, hback, mergeSegments, mergeSegment_normal_append]
  | some tag =>
    simp [pushText, hactive, pushSegment, hfront, hback, mergeSegments, mergeSegment_tagDelta_append]

/-! ## One character at a time -/

namespace TaggedLineParser

/-- What `parse` does with one character, with nothing collected before it. -/
def parseChar (ch : Char) : TaggedLineParser T × List (TaggedLineSegment T) :=
  if self.detectTag then
    let self := { self with lineBuffer := self.lineBuffer ++ [ch] }
    let slug := trimStart self.lineBuffer
    if ch = '\n' then self.finishLine []
    else if slug.isEmpty || self.isTagPrefix slug then (self, [])
    else ({ self with lineBuffer := [], detectTag := false }, self.pushText self.lineBuffer [])
  else ({ self with detectTag := ch = '\n' }, self.pushText [ch] [])

def parseChars (self : TaggedLineParser T) : Str → TaggedLineParser T × List (TaggedLineSegment T)
  | [] => (self, [])
  | ch :: rest =>
    let (self, segments) := self.parseChar ch
    let (self, segments') := self.parseChars rest
    (self, segments ++ segments')

theorem parseChars_append (front back : Str) : self.parseChars (front ++ back) =
      (((self.parseChars front).1.parseChars back).1,
        (self.parseChars front).2 ++ ((self.parseChars front).1.parseChars back).2) := by
  induction front generalizing self with
  | nil => rfl
  | cons ch front ih => simp [parseChars, ih]

theorem closeLine_fst (segments : List (TaggedLineSegment T)) :
    (self.closeLine segments).1 = (self.closeLine []).1 := by
  unfold closeLine
  dsimp only
  split
  · rfl
  · split <;> rfl
  · rfl

/-- A whole line adds to the segments, up to merging. -/
theorem mergeSegments_closeLine {self : TaggedLineParser T} (hne : self.lineBuffer ≠ [])
    (segments rest : List (TaggedLineSegment T)) :
    mergeSegments (self.closeLine segments).2 rest =
      mergeSegments segments (mergeSegments (self.closeLine []).2 rest) := by
  unfold closeLine
  dsimp only
  split
  · simp [pushSegment, mergeSegments_append]
  · split
    · simp [pushSegment, mergeSegments_append]
    · exact mergeSegments_pushText _ hne _ _
  · exact mergeSegments_pushText _ hne _ _

def RunOk (run : Str) : Prop := run ≠ [] → self.detectTag = false

def runSegments (run : Str) : List (TaggedLineSegment T) :=
  if run.isEmpty then [] else self.pushText run []

theorem mergeSegments_runSegments (run : Str) (segments rest : List (TaggedLineSegment T)) :
    mergeSegments (if run.isEmpty then segments else self.pushText run segments) rest =
      mergeSegments segments (mergeSegments (self.runSegments run) rest) := by
  cases run with
  | nil => rfl
  | cons c run => exact mergeSegments_pushText self (cons_ne_nil c run) segments rest

theorem mergeSegments_runSegments_concat (run : Str) (ch : Char) (rest : List (TaggedLineSegment T)) :
    mergeSegments (self.pushText (run ++ [ch]) []) rest =
      mergeSegments (self.runSegments run) (mergeSegments (self.pushText [ch] []) rest) := by
  cases run with
  | nil => rfl
  | cons c run => exact mergeSegments_pushText_append self (cons_ne_nil c run) (cons_ne_nil ch []) rest

/-- The loop of `parse` gives what the characters give one at a time, up to merging. -/
theorem parseLoop_eq (text : Str) {self : TaggedLineParser T} {run : Str} (hrun : self.RunOk run)
    (segments : List (TaggedLineSegment T)) :
    (parseLoop text self run segments).1 = (self.parseChars text).1 ∧
      ∀ rest, mergeSegments (parseLoop text self run segments).2 rest = mergeSegments segments
          (mergeSegments (self.runSegments run) (mergeSegments (self.parseChars text).2 rest)) := by
  induction text generalizing self run segments with
  | nil => exact ⟨rfl, fun rest => mergeSegments_runSegments self run segments rest⟩
  | cons ch text ih =>
    cases hdetect : self.detectTag with
    | true =>
      -- nothing is collected where a tag may start
      obtain rfl : run = [] := by
        by_contra hne
        rw [hrun hne] at hdetect
        cases hdetect
      have hbuffer : self.lineBuffer ++ [ch] ≠ [] := append_ne_nil_of_right_ne_nil _ (cons_ne_nil ch [])
      have hnone : ∀ self : TaggedLineParser T, self.RunOk [] := fun self h => absurd rfl h
      simp only [parseLoop, parseChars, parseChar, hdetect, if_true, isEmpty_nil]
      split
      · refine ⟨?_, fun rest => ?_⟩
        · rw [(ih (hnone _) _).1]
          simp [finishLine, closeLine_fst _ segments]
        · rw [(ih (hnone _) _).2]
          simp only [finishLine, closeLine_fst _ segments, mergeSegments_append]
          exact mergeSegments_closeLine hbuffer segments _
      · split
        · exact ih (hnone _) _
        · refine ⟨(ih (hnone _) _).1, fun rest => ?_⟩
          rw [(ih (hnone _) _).2, mergeSegments_append]
          exact mergeSegments_pushText _ hbuffer segments _
    | false =>
      have hconcat : run ++ [ch] ≠ [] := append_ne_nil_of_right_ne_nil _ (cons_ne_nil ch [])
      simp only [parseLoop, parseChars, parseChar, hdetect, Bool.false_eq_true, if_false]
      split
      next hnewline =>
        have hnone : TaggedLineParser.RunOk { self with detectTag := true } [] := fun h => absurd rfl h
        rw [decide_eq_true hnewline]
        refine ⟨(ih hnone _).1, fun rest => ?_⟩
        rw [(ih hnone _).2, mergeSegments_append, mergeSegments_pushText self hconcat, mergeSegments_runSegments_concat]
        rfl
      next hother =>
        have hself : { self with detectTag := decide (ch = '\n') } = self := by
          rw [decide_eq_false hother, ← hdetect]
        rw [hself]
        have hrun' : self.RunOk (run ++ [ch]) := fun _ => hdetect
        refine ⟨(ih hrun' _).1, fun rest => ?_⟩
        have hsegments : self.runSegments (run ++ [ch]) = self.pushText (run ++ [ch]) [] := by
          rw [runSegments, List.isEmpty_eq_false_iff.mpr hconcat]
          rfl
        rw [(ih hrun' _).2, mergeSegments_append, hsegments, mergeSegments_runSegments_concat]

theorem parse_fst (text : Str) : (self.parse text).1 = (self.parseChars text).1 :=
  (parseLoop_eq text (fun h => absurd rfl h) []).1

theorem mergeSegments_parse (text : Str) (rest : List (TaggedLineSegment T)) :
    mergeSegments (self.parse text).2 rest = mergeSegments (self.parseChars text).2 rest :=
  (parseLoop_eq text (fun h => absurd rfl h) []).2 rest

/-- The state after a text in two chunks is the state after it in one. -/
theorem parse_append_fst (front back : Str) : (self.parse (front ++ back)).1 = ((self.parse front).1.parse back).1 := by
  rw [parse_fst, parse_fst, parse_fst, parseChars_append]

theorem mergeSegments_parse_append (front back : Str) (rest : List (TaggedLineSegment T)) :
    mergeSegments (self.parse (front ++ back)).2 rest =
      mergeSegments ((self.parse front).2 ++ ((self.parse front).1.parse back).2) rest := by
  rw [mergeSegments_parse, parseChars_append, mergeSegments_append, mergeSegments_append, mergeSegments_parse,
    mergeSegments_parse, parse_fst]

end TaggedLineParser

end Dcode.StreamParser
