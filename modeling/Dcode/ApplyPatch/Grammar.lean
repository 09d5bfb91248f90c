import Dcode.ApplyPatch.Parser

/-!
# The grammar of patches

The documented grammar of `codex-rs/apply-patch/src/parser.rs` as syntax trees whose texts are well
formed by construction, the hunks that a tree stands for, and its canonical rendering.
-/

namespace Dcode.ApplyPatch

open Str (NoTrailing joinLines)

/-! ## Trees -/

structure HeaderText where
  text : Str
  nonempty : text ≠ []
  oneLine : '\n' ∉ text
  noTrailing : NoTrailing text

/-- A line of file contents. -/
structure ContentLine where
  text : Str
  oneLine : '\n' ∉ text
  noCr : text.getLast? ≠ some '\r'

/-- A line of a change. -/
inductive DiffLine where
  | context (line : ContentLine)
  | removed (line : ContentLine)
  | added (line : ContentLine)

structure Change where
  changeContext : Option HeaderText
  lines : List DiffLine
  nonempty : lines ≠ []
  isEndOfFile : Bool

inductive HunkTree where
  | addFile (path : HeaderText) (lines : List ContentLine)
  | deleteFile (path : HeaderText)
  | updateFile (path : HeaderText) (movePath : Option HeaderText) (changes : List Change)
      (nonempty : changes ≠ [])

/-! ## Meaning -/

def DiffLine.oldLines : DiffLine → List Str
  | context line | removed line => [line.text]
  | added _ => []

def DiffLine.newLines : DiffLine → List Str
  | context line | added line => [line.text]
  | removed _ => []

def Change.toChunk (change : Change) : UpdateFileChunk where
  changeContext := change.changeContext.map (·.text)
  oldLines := change.lines.flatMap (·.oldLines)
  newLines := change.lines.flatMap (·.newLines)
  isEndOfFile := change.isEndOfFile

def HunkTree.toHunk : HunkTree → Hunk
  | addFile path lines => .addFile path.text (lines.flatMap fun line => line.text ++ ['\n'])
  | deleteFile path => .deleteFile path.text
  | updateFile path movePath changes _ =>
    .updateFile path.text (movePath.map (·.text)) (changes.map (·.toChunk))

/-! ## Rendering -/

def DiffLine.render : DiffLine → Str
  | context line => ' ' :: line.text
  | removed line => '-' :: line.text
  | added line => '+' :: line.text

def renderContext : Option HeaderText → Str
  | none => emptyChangeContextMarker
  | some context => changeContextMarker ++ context.text

def Change.render (change : Change) : List Str :=
  renderContext change.changeContext :: change.lines.map (·.render) ++
    if change.isEndOfFile then [eofMarker] else []

def HunkTree.render : HunkTree → List Str
  | addFile path lines => (addFileMarker ++ path.text) :: lines.map fun line => '+' :: line.text
  | deleteFile path => [deleteFileMarker ++ path.text]
  | updateFile path movePath changes _ =>
    (updateFileMarker ++ path.text) ::
      (movePath.toList.map fun path => moveToMarker ++ path.text) ++ changes.flatMap (·.render)

def renderEnvironmentId (environmentId : Option Str) : List Str :=
  environmentId.toList.map fun id => environmentIdMarker ++ ' ' :: id

/-- The lines of a patch before its end marker. -/
def renderBody (environmentId : Option Str) (trees : List HunkTree) : List Str :=
  beginPatchMarker :: renderEnvironmentId environmentId ++ trees.flatMap (·.render)

def renderPatch (environmentId : Option Str) (trees : List HunkTree) : Str :=
  joinLines (renderBody environmentId trees ++ [endPatchMarker])

/-! ## Hunks that have a tree -/

/-- A line of contents that a patch can carry. -/
def IsContentLine (line : Str) : Prop := '\n' ∉ line ∧ line.getLast? ≠ some '\r'

/-- A path or a context that a patch can carry. -/
def IsHeaderText (text : Str) : Prop := text ≠ [] ∧ '\n' ∉ text ∧ NoTrailing text

/-- An environment id that a patch can carry. -/
def IsEnvironmentId (id : Str) : Prop := IsHeaderText id ∧ Str.NoLeading id

structure UpdateFileChunk.Renderable (chunk : UpdateFileChunk) : Prop where
  changeContext : ∀ context ∈ chunk.changeContext, IsHeaderText context
  nonempty : chunk.oldLines ≠ [] ∨ chunk.newLines ≠ []
  oldLines : ∀ line ∈ chunk.oldLines, IsContentLine line
  newLines : ∀ line ∈ chunk.newLines, IsContentLine line

/-- The hunks of the grammar: added files consist of whole lines, updates of chunks with lines. -/
def Hunk.Renderable : Hunk → Prop
  | addFile path contents => IsHeaderText path ∧
      ∃ lines : List Str, (∀ line ∈ lines, IsContentLine line) ∧ contents = lines.flatMap (· ++ ['\n'])
  | deleteFile path => IsHeaderText path
  | updateFile path movePath chunks => IsHeaderText path ∧ (∀ path ∈ movePath, IsHeaderText path) ∧
      chunks ≠ [] ∧ ∀ chunk ∈ chunks, chunk.Renderable

end Dcode.ApplyPatch
