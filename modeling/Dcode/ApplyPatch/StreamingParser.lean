import Dcode.ApplyPatch.Hunk

/-!
# The streaming patch parser

`StreamingPatchParser` of `codex-rs/apply-patch/src/streaming_parser.rs`: a machine that is fed text in
deltas, cuts it into lines and processes one line at a time. Where the source mutates the parser and
returns an error, the model returns the error alone.
-/

namespace Dcode.ApplyPatch

open Str (trim trimEnd stripPrefix stripCr)

/-! ## Markers -/

def beginPatchMarker : Str := "*** Begin Patch".toList
def endPatchMarker : Str := "*** End Patch".toList
def addFileMarker : Str := "*** Add File: ".toList
def deleteFileMarker : Str := "*** Delete File: ".toList
def updateFileMarker : Str := "*** Update File: ".toList
def moveToMarker : Str := "*** Move to: ".toList
def eofMarker : Str := "*** End of File".toList
def changeContextMarker : Str := "@@ ".toList
def emptyChangeContextMarker : Str := "@@".toList
def environmentIdMarker : Str := "*** Environment ID:".toList

/-! ## State -/

inductive StreamingParserMode where
  | notStarted
  | startedPatch
  | addFile
  | deleteFile
  | updateFile (hunkLineNumber : Nat)
  | endedPatch
deriving DecidableEq

structure StreamingPatchParser where
  lineBuffer : Str := []
  mode : StreamingParserMode := .notStarted
  hunks : List Hunk := []
  environmentId : Option Str := none
  lineNumber : Nat := 0
deriving DecidableEq

/-! ## Error messages -/

def firstLineMessage : Str := "The first line of the patch must be '*** Begin Patch'".toList
def lastLineMessage : Str := "The last line of the patch must be '*** End Patch'".toList
def noLinesMessage : Str := "Update hunk does not contain any lines".toList

def emptyUpdateMessage (path : Str) : Str :=
  "Update file hunk for path '".toList ++ path ++ "' is empty".toList

def unexpectedLineMessage (line : Str) : Str :=
  "Unexpected line found in update hunk: '".toList ++ line ++
    "'. Every line should start with ' ' (context line), '+' (added line), or '-' (removed line)".toList

def expectedContextMessage (line : Str) : Str :=
  "Expected update hunk to start with a @@ context marker, got: '".toList ++ line ++ "'".toList

def invalidHeaderMessage (trimmed : Str) : Str :=
  "'".toList ++ trimmed ++ "' is not a valid hunk header. Valid hunk headers: ".toList ++
    "'*** Add File: \x7bpath\x7d', '*** Delete File: \x7bpath\x7d', ".toList ++
    "'*** Update File: \x7bpath\x7d'".toList

/-! ## Headers -/

/-- A chunk with neither old nor new lines. -/
def UpdateFileChunk.isBlank (chunk : UpdateFileChunk) : Bool :=
  chunk.oldLines.isEmpty && chunk.newLines.isEmpty

/-- The last chunk exists and has no lines yet. -/
def lastBlank (chunks : List UpdateFileChunk) : Bool := chunks.getLast?.any (·.isBlank)

def lastEof (chunks : List UpdateFileChunk) : Bool := chunks.getLast?.any (·.isEndOfFile)

variable (p : StreamingPatchParser)

def ensureUpdateHunkIsNotEmpty (line : Str) : Except ParseError Unit :=
  match p.hunks.getLast? with
  | some (.updateFile path _ chunks) =>
    match chunks, p.mode with
    | [], .updateFile hunkLineNumber =>
      .error (.invalidHunkError (emptyUpdateMessage path) hunkLineNumber)
    | chunks, _ =>
      if lastBlank chunks then
        if line = endPatchMarker then .error (.invalidHunkError noLinesMessage p.lineNumber)
        else .error (.invalidHunkError (unexpectedLineMessage line) p.lineNumber)
      else .ok ()
  | _ => .ok ()

/-- Closes the hunk before and opens a new one. -/
def openHunk (trimmed : Str) (hunk : Hunk) (mode : StreamingParserMode) :
    Except ParseError (Option StreamingPatchParser) := do
  ensureUpdateHunkIsNotEmpty p trimmed
  return some { p with hunks := p.hunks ++ [hunk], mode := mode }

/-- The environment id line, which counts only before the first hunk. -/
def environmentIdOf (trimmed : Str) : Option Str :=
  if p.mode = .startedPatch then stripPrefix environmentIdMarker trimmed else none

/-- `handle_hunk_headers_and_end_patch`: `some` parser where the source returns true. -/
def handleHunkHeadersAndEndPatch (trimmed : Str) : Except ParseError (Option StreamingPatchParser) :=
  match environmentIdOf p trimmed with
  | some environmentId =>
    if p.environmentId.isSome then .error (.invalidPatchError
      "apply_patch environment_id cannot be specified more than once".toList)
    else if (trim environmentId).isEmpty then .error (.invalidPatchError
      "apply_patch environment_id cannot be empty".toList)
    else .ok (some { p with environmentId := some (trim environmentId) })
  | none =>
    if trimmed = endPatchMarker then do
      ensureUpdateHunkIsNotEmpty p trimmed
      return some { p with mode := .endedPatch }
    else
      match stripPrefix addFileMarker trimmed with
      | some path => openHunk p trimmed (.addFile path []) .addFile
      | none =>
        match stripPrefix deleteFileMarker trimmed with
        | some path => openHunk p trimmed (.deleteFile path) .deleteFile
        | none =>
          match stripPrefix updateFileMarker trimmed with
          | some path => openHunk p trimmed (.updateFile path none []) (.updateFile p.lineNumber)
          | none => .ok none

/-! ## Lines -/

/-- Applies `f` to the last chunk. -/
def modifyLast (f : UpdateFileChunk → UpdateFileChunk) (chunks : List UpdateFileChunk) : List UpdateFileChunk :=
  match chunks.getLast? with
  | some chunk => chunks.dropLast ++ [f chunk]
  | none => []

/-- Adds lines to the last chunk, opening one without context when there is none. -/
def pushLines (oldLines newLines : List Str) (chunks : List UpdateFileChunk) : List UpdateFileChunk :=
  modifyLast (fun chunk => { chunk with
      oldLines := chunk.oldLines ++ oldLines, newLines := chunk.newLines ++ newLines })
    (if chunks.isEmpty then [⟨none, [], [], false⟩] else chunks)

/-- The line opens a chunk: `@@`, alone or with a context. -/
def isContextMarker (updateLine : Str) : Bool :=
  updateLine = emptyChangeContextMarker || (stripPrefix changeContextMarker updateLine).isSome

/-- The lines of an update hunk that are recognised by what is left of them without trailing
whitespace: blank lines after an end-of-file marker, the move, `@@` and the end-of-file marker. `none`
where the source goes on to look at the line itself. -/
def processMarkerLine (lineNumber : Nat) (movePath : Option Str) (chunks : List UpdateFileChunk)
    (line : Str) : Option (Except ParseError (Option Str × List UpdateFileChunk)) :=
  let updateLine := trimEnd line
  if lastEof chunks && updateLine.isEmpty then some (.ok (movePath, chunks))
  else if lastEof chunks && !isContextMarker updateLine then
    some (.error (.invalidHunkError (expectedContextMessage line) lineNumber))
  else
    match if chunks.isEmpty && movePath.isNone then stripPrefix moveToMarker updateLine else none with
    | some moveToPath => some (.ok (some moveToPath, chunks))
    | none =>
      if isContextMarker updateLine && lastBlank chunks then
        some (.error (.invalidHunkError (unexpectedLineMessage line) lineNumber))
      else if updateLine = emptyChangeContextMarker then
        some (.ok (movePath, chunks ++ [⟨none, [], [], false⟩]))
      else
        match stripPrefix changeContextMarker updateLine with
        | some changeContext =>
          some (.ok (movePath, chunks ++ [⟨some changeContext, [], [], false⟩]))
        | none =>
          if updateLine = eofMarker then
            if lastBlank chunks then some (.error (.invalidHunkError noLinesMessage lineNumber))
            else some (.ok
              (movePath, modifyLast (fun chunk => { chunk with isEndOfFile := true }) chunks))
          else none

/-- The lines of an update hunk that go into a chunk, by their first character. -/
def processBodyLine (lineNumber : Nat) (chunks : List UpdateFileChunk) (line : Str) :
    Except ParseError (List UpdateFileChunk) :=
  match line with
  | [] => .ok (pushLines [[]] [[]] chunks)
  | c :: rest =>
    if c = ' ' then .ok (pushLines [rest] [rest] chunks)
    else if c = '+' then .ok (pushLines [] [rest] chunks)
    else if c = '-' then .ok (pushLines [rest] [] chunks)
    else if chunks.getLast?.any (!·.isBlank) then
      .error (.invalidHunkError (expectedContextMessage line) lineNumber)
    else .error (.invalidHunkError (unexpectedLineMessage line) lineNumber)

/-- The lines of an update hunk that are no headers: the hunk's `move_path` and `chunks` after it. -/
def processUpdateLine (lineNumber : Nat) (movePath : Option Str) (chunks : List UpdateFileChunk)
    (line : Str) : Except ParseError (Option Str × List UpdateFileChunk) :=
  match processMarkerLine lineNumber movePath chunks line with
  | some result => result
  | none => do
    let chunks ← processBodyLine lineNumber chunks line
    return (movePath, chunks)

/-- The lines of an added file: appends a line after `+` to the contents of the last hunk. -/
def processAddLine (line : Str) : Except ParseError StreamingPatchParser :=
  match stripPrefix ['+'] line, p.hunks.getLast? with
  | some lineToAdd, some (.addFile path contents) =>
    .ok { p with hunks := p.hunks.dropLast ++ [.addFile path (contents ++ lineToAdd ++ ['\n'])] }
  | _, _ => .error (.invalidHunkError (invalidHeaderMessage (trim line)) p.lineNumber)

def processLine (line : Str) : Except ParseError StreamingPatchParser :=
  let trimmed := trim line
  match p.mode with
  | .notStarted =>
    if trimmed = beginPatchMarker then .ok { p with mode := .startedPatch }
    else .error (.invalidPatchError firstLineMessage)
  | .startedPatch | .deleteFile => do
    match ← handleHunkHeadersAndEndPatch p trimmed with
    | some p' => return p'
    | none => throw (.invalidHunkError (invalidHeaderMessage trimmed) p.lineNumber)
  | .addFile => do
    match ← handleHunkHeadersAndEndPatch p trimmed with
    | some p' => return p'
    | none => processAddLine p line
  | .updateFile _ => do
    match ← handleHunkHeadersAndEndPatch p (trimEnd line) with
    | some p' => return p'
    | none =>
      match p.hunks.getLast? with
      | some (.updateFile path movePath chunks) =>
        let (movePath, chunks) ← processUpdateLine p.lineNumber movePath chunks line
        return { p with hunks := p.hunks.dropLast ++ [.updateFile path movePath chunks] }
      | _ => throw (.invalidHunkError (unexpectedLineMessage line) p.lineNumber)
  | .endedPatch =>
    if trimmed.isEmpty then .ok p else .error (.invalidPatchError lastLineMessage)

/-! ## Deltas -/

/-- One character of a delta. -/
def pushChar (ch : Char) : Except ParseError StreamingPatchParser :=
  if ch = '\n' then
    processLine { p with lineBuffer := [], lineNumber := p.lineNumber + 1 } (stripCr p.lineBuffer)
  else .ok { p with lineBuffer := p.lineBuffer ++ [ch] }

def pushDelta (delta : Str) : Except ParseError StreamingPatchParser :=
  delta.foldlM pushChar p

/-- The last line of `finish`, which no line feed ends. -/
def finishLine : Except ParseError StreamingPatchParser :=
  if p.lineBuffer.isEmpty then .ok p
  else
    let line := p.lineBuffer
    let p := { p with lineBuffer := [], lineNumber := p.lineNumber + 1 }
    if trim line = endPatchMarker then do
      ensureUpdateHunkIsNotEmpty p (trim line)
      return { p with mode := .endedPatch }
    else processLine p line

def finish : Except ParseError StreamingPatchParser := do
  let p ← finishLine p
  if p.mode = .endedPatch then return p else throw (.invalidPatchError lastLineMessage)

/-- A whole patch fed in deltas. -/
def streamPatch (deltas : List Str) : Except ParseError StreamingPatchParser := do
  let p ← deltas.foldlM pushDelta {}
  finish p

end Dcode.ApplyPatch
