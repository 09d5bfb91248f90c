import Dcode.ApplyPatch.StreamingParser

/-!
# Parsing a patch

`parse_patch` of `codex-rs/apply-patch/src/parser.rs`: checks the first and the last line of the text,
unwraps a heredoc, and feeds the lines, joined again, to the streaming parser.
-/

namespace Dcode.ApplyPatch

open Str (trim)

structure ApplyPatchArgs where
  patch : Str
  hunks : List Hunk
  workdir : Option Str
  environmentId : Option Str
deriving DecidableEq

inductive ParseMode where
  | strict
  | lenient
deriving DecidableEq

def parseInStrictMode : Bool := false

def checkStartAndEndLinesStrict (firstLine lastLine : Option Str) : Except ParseError Unit :=
  match firstLine.map trim, lastLine.map trim with
  | some first, some last =>
    if first = beginPatchMarker ∧ last = endPatchMarker then .ok ()
    else if first ≠ beginPatchMarker then .error (.invalidPatchError firstLineMessage)
    else .error (.invalidPatchError lastLineMessage)
  | some first, none =>
    if first ≠ beginPatchMarker then .error (.invalidPatchError firstLineMessage)
    else .error (.invalidPatchError lastLineMessage)
  | none, _ => .error (.invalidPatchError lastLineMessage)

def checkPatchBoundariesStrict (lines : List Str) : Except ParseError (List Str) := do
  checkStartAndEndLinesStrict lines.head? lines.getLast?
  return lines

/-- The lines are those of a heredoc: an opening and a closing line around at least two others. -/
def isHeredoc (lines : List Str) : Bool :=
  (lines.head? = some "<<EOF".toList || lines.head? = some "<<'EOF'".toList ||
    lines.head? = some "<<\"EOF\"".toList) &&
  lines.getLast?.any (fun last => "EOF".toList.isSuffixOf last) && lines.length ≥ 4

def checkPatchBoundariesLenient (originalLines : List Str) : Except ParseError (List Str) :=
  match checkPatchBoundariesStrict originalLines with
  | .ok lines => .ok lines
  | .error originalParseError =>
    if isHeredoc originalLines then
      checkPatchBoundariesStrict ((originalLines.drop 1).take (originalLines.length - 2))
    else .error originalParseError

def parsePatchText (patch : Str) (mode : ParseMode) : Except ParseError ApplyPatchArgs := do
  let lines := Str.lines (trim patch)
  let patchLines ← match mode with
    | .strict => checkPatchBoundariesStrict lines
    | .lenient => checkPatchBoundariesLenient lines
  let patch := Str.joinLines patchLines
  let parser ← pushDelta {} patch
  let parser ← finish parser
  return { patch := patch, hunks := parser.hunks, workdir := none,
           environmentId := parser.environmentId }

def parsePatch (patch : Str) : Except ParseError ApplyPatchArgs :=
  parsePatchText patch (if parseInStrictMode then .strict else .lenient)

end Dcode.ApplyPatch
