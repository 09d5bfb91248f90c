import Dcode.ApplyPatch.StreamingParser

/-!
# The shape of a patch

What makes a sequence of lines a patch, apart from what the lines say: a finite machine with one state
per place in a patch. It says which lines are accepted where and which of them carry file contents; the
streaming parser refines it (`Proofs/PatchShapeProofs.lean`).
-/

namespace Dcode.ApplyPatch

open Str (trim trimEnd stripPrefix stripCr)

/-- A place in a patch. -/
inductive Shape where
  | notStarted
  | startedPatch (hasEnvironmentId : Bool)
  | addFile
  | deleteFile
  | updateHeader (moved : Bool)
  | chunkBlank
  | chunkOpen
  | chunkEof
  | endedPatch
deriving DecidableEq

namespace Shape

/-- A hunk header or the end of the patch may follow. -/
def closable : Shape → Bool
  | updateHeader _ | chunkBlank => false
  | _ => true

/-- Where a hunk header or the end of the patch leads. -/
def ofHeader (trimmed : Str) : Option Shape :=
  if trimmed = endPatchMarker then some endedPatch
  else if (stripPrefix addFileMarker trimmed).isSome then some addFile
  else if (stripPrefix deleteFileMarker trimmed).isSome then some deleteFile
  else if (stripPrefix updateFileMarker trimmed).isSome then some (updateHeader false)
  else none

def isBody : Str → Bool
  | [] => true
  | c :: _ => c == ' ' || c == '+' || c == '-'

/-- The lines of an update hunk that are no headers. -/
def updateStep (s : Shape) (line : Str) : Option Shape :=
  let updateLine := trimEnd line
  if s = chunkEof && updateLine.isEmpty then some chunkEof
  else if s = chunkEof && !isContextMarker updateLine then none
  else if s = updateHeader false && (stripPrefix moveToMarker updateLine).isSome then
    some (updateHeader true)
  else if isContextMarker updateLine then if s = chunkBlank then none else some chunkBlank
  else if updateLine = eofMarker then
    if s = chunkBlank then none else if s = chunkOpen then some chunkEof else some s
  else if isBody line then some chunkOpen else none

/-- One line: where it leads, if it may stand here. -/
def step (s : Shape) (line : Str) : Option Shape :=
  match s with
  | notStarted => if trim line = beginPatchMarker then some (startedPatch false) else none
  | startedPatch hasEnvironmentId =>
    match stripPrefix environmentIdMarker (trim line) with
    | some environmentId =>
      if hasEnvironmentId || (trim environmentId).isEmpty then none else some (startedPatch true)
    | none => ofHeader (trim line)
  | addFile =>
    match ofHeader (trim line) with
    | some s => some s
    | none => if (stripPrefix ['+'] line).isSome then some addFile else none
  | deleteFile => ofHeader (trim line)
  | endedPatch => if (trim line).isEmpty then some endedPatch else none
  | updateHeader _ | chunkBlank | chunkOpen | chunkEof =>
    match ofHeader (trimEnd line) with
    | some next => if s.closable then some next else none
    | none => s.updateStep line

/-- The unterminated last line of a patch. -/
def finish (s : Shape) (line : Str) : Option Shape :=
  if line.isEmpty then some s
  else if trim line = endPatchMarker then if s.closable then some endedPatch else none
  else s.step line

def isContent (s : Shape) (line : Str) : Bool :=
  match s with
  | addFile => (stripPrefix ['+'] line).isSome
  | updateHeader _ | chunkBlank | chunkOpen => isBody line
  | _ => false

/-- How many characters of content a line of a chunk adds; a context line adds its text twice. -/
def bodyGain (line : Str) : Nat :=
  if line.head? = some ' ' then 2 * (line.length - 1) else line.length - 1

/-- How many characters of content the line adds. -/
def gain (s : Shape) (line : Str) : Nat :=
  if s.isContent line then if s = addFile then line.length else bodyGain line else 0

def totalGain (s : Shape) : List Str → Nat
  | [] => 0
  | line :: lines =>
    s.gain line +
      match s.step line with
      | some next => next.totalGain lines
      | none => 0

def finishGain (s : Shape) (line : Str) : Nat :=
  if line.isEmpty || trim line = endPatchMarker then 0 else s.gain line

end Shape

/-! ## Texts -/

def bareLine (line : Str) : Str := stripCr (stripCr line)

/-- The line ends in two carriage returns, before its line feed. -/
def endsInDoubleCr (line : Str) : Bool := ['\r', '\r'].isSuffixOf line

/-- One of `lines` goes into the contents of a hunk and ends in two carriage returns. -/
def Shape.doubleCrContent (s : Shape) : List Str → Bool
  | [] => false
  | line :: lines =>
    (s.isContent (bareLine line) && endsInDoubleCr line) ||
      match s.step (bareLine line) with
      | some next => next.doubleCrContent lines
      | none => false

/-- The lines of a text that a line feed ends. -/
def terminatedLines (text : Str) : List Str := (text.splitOn '\n').dropLast

/-- What follows the last line feed of a text. -/
def lastLine (text : Str) : Str := (text.splitOn '\n').getLastD []

/-- The text has the shape of a complete patch. -/
def isPatch (text : Str) : Bool :=
  (((terminatedLines text).map bareLine).foldlM Shape.step .notStarted).bind
    (·.finish (lastLine text)) = some .endedPatch

def hasDoubleCrContent (text : Str) : Bool :=
  Shape.notStarted.doubleCrContent (terminatedLines text)

end Dcode.ApplyPatch
