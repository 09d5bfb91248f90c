import Dcode.ApplyPatch.Delta
import Mathlib.Data.Char
import Mathlib.Data.List.AList
import Mathlib.Data.List.Destutter
import Mathlib.Data.List.Lex

/-!
# The net diff of a turn

`TurnDiffTracker` of `codex-rs/core/src/turn_diff_tracker.rs`: what the files of a turn held when it began
and what they hold now, learned from the deltas of the patches alone, and the diff that is shown of it.
A hash map is an association list; its order is that of an iteration over the map.
-/

namespace Dcode.TurnDiff

open ApplyPatch

structure TrackedContent where
  content : Str
  revision : Nat
deriving DecidableEq

/-- `TrackedPath`: a path of one of the environments of the turn. -/
structure TrackedPath (P : Type) where
  environmentId : Str
  path : P
deriving DecidableEq

structure DiffCacheKey (P : Type) where
  leftPath : TrackedPath P
  leftRevision : Option Nat
  rightPath : TrackedPath P
  rightRevision : Option Nat
deriving DecidableEq

structure TurnDiffTracker (P : Type) where
  valid : Bool := true
  displayRootsByEnvironment : AList fun _ : Str => P := ∅
  baselineByPath : AList fun _ : TrackedPath P => TrackedContent := ∅
  currentByPath : AList fun _ : TrackedPath P => TrackedContent := ∅
  originByCurrentPath : AList fun _ : TrackedPath P => TrackedPath P := ∅
  nextRevision : Nat := 0
  renderedDiffs : AList fun _ : DiffCacheKey P => Option Str := ∅
  unifiedDiff : Option Str := none

/-- What the tracker takes from elsewhere: the texts of a path, the object id of a text, and the unified
diff of two texts under two headers. -/
structure RenderOps (P : Type) where
  relativePathFrom : P → P → Option Str
  inferredNativePathString : P → Str
  gitBlobOid : Str → Str
  unifiedDiff : Str → Str → Str → Str → Str

def zeroOid : Str := "0000000000000000000000000000000000000000".toList

def devNull : Str := "/dev/null".toList

def regularFileMode : Str := "100644".toList

namespace TurnDiffTracker

variable {P : Type} [DecidableEq P]

def withEnvironmentDisplayRoots (displayRoots : List (Str × P)) : TurnDiffTracker P where
  displayRootsByEnvironment := displayRoots.foldl (fun roots root => roots.insert root.1 root.2) ∅

/-! ## Changes -/

variable (t : TurnDiffTracker P) (path : TrackedPath P)

def insertBaseline (content : Str) : TurnDiffTracker P :=
  { t with
    baselineByPath := t.baselineByPath.insert path ⟨content, t.nextRevision⟩
    nextRevision := t.nextRevision + 1 }

def insertCurrent (content : Str) : TurnDiffTracker P :=
  { t with
    currentByPath := t.currentByPath.insert path ⟨content, t.nextRevision⟩
    nextRevision := t.nextRevision + 1 }

/-- Takes what a path held before a change as its baseline, if the path is in neither map. -/
def captureBaseline (content : Option Str) : TurnDiffTracker P :=
  if path ∉ t.currentByPath ∧ path ∉ t.baselineByPath then
    match content with
    | some content => t.insertBaseline path content
    | none => t
  else t

def applyAdd (content : Str) (overwrittenContent : Option Str) : TurnDiffTracker P :=
  let t := { t with originByCurrentPath := t.originByCurrentPath.erase path }
  (t.captureBaseline path overwrittenContent).insertCurrent path content

def applyDelete (content : Str) : TurnDiffTracker P :=
  let removed := t.currentByPath.lookup path
  let t := { t with currentByPath := t.currentByPath.erase path }
  let t := if removed = none ∧ path ∉ t.baselineByPath then t.insertBaseline path content else t
  { t with originByCurrentPath := t.originByCurrentPath.erase path }

/-- The move of `apply_update`. The destination remembers where its file stood when the turn began. -/
def applyMove (sourcePath destPath : TrackedPath P)
    (overwrittenMoveContent : Option Str) (newContent : Str) : TurnDiffTracker P :=
  let t := t.captureBaseline destPath overwrittenMoveContent
  let origin := (t.originByCurrentPath.lookup sourcePath).getD sourcePath
  let t := { t with
    originByCurrentPath := t.originByCurrentPath.erase sourcePath
    currentByPath := t.currentByPath.erase sourcePath }
  let t := t.insertCurrent destPath newContent
  let origins := t.originByCurrentPath.erase destPath
  { t with originByCurrentPath := if destPath ≠ origin then origins.insert destPath origin else origins }

def applyUpdate (sourcePath : TrackedPath P) (movePath : Option (TrackedPath P))
    (oldContent : Str) (overwrittenMoveContent : Option Str) (newContent : Str) :
    TurnDiffTracker P :=
  let t := t.captureBaseline sourcePath (some oldContent)
  match movePath with
  | some destPath => t.applyMove sourcePath destPath overwrittenMoveContent newContent
  | none => t.insertCurrent sourcePath newContent

def applyChange (environmentId : Str) (t : TurnDiffTracker P) (change : AppliedPatchChange P) : TurnDiffTracker P :=
  let sourcePath : TrackedPath P := ⟨environmentId, change.path⟩
  match change.change with
  | .add content overwrittenContent => t.applyAdd sourcePath content overwrittenContent
  | .delete content => t.applyDelete sourcePath content
  | .update movePath oldContent overwrittenMoveContent newContent =>
    t.applyUpdate sourcePath (movePath.map (⟨environmentId, ·⟩)) oldContent overwrittenMoveContent
      newContent

/-! ## Rendering -/

/-- `rename_pairs`: from the origin of a moved file to where it is now. -/
def renamePairs : AList fun _ : TrackedPath P => TrackedPath P :=
  t.originByCurrentPath.entries.foldl (fun pairs entry =>
    let destPath := entry.1
    let originPath := entry.2
    if destPath = originPath ∨ originPath ∈ t.currentByPath ∨ destPath ∉ t.currentByPath ∨
        originPath ∉ t.baselineByPath ∨ destPath ∈ t.baselineByPath then pairs
    else pairs.insert originPath destPath) ∅

variable (ops : RenderOps P)

def displayPath (t : TurnDiffTracker P) (path : TrackedPath P) : Str :=
  let relative := (t.displayRootsByEnvironment.lookup path.environmentId).bind
    (ops.relativePathFrom path.path ·)
  let display := relative.getD (ops.inferredNativePathString path.path)
  if t.displayRootsByEnvironment.entries.length > 1 ∧ path.environmentId ≠ [] then
    path.environmentId ++ '/' :: display
  else display

def renderDiff (t : TurnDiffTracker P) (leftPath : TrackedPath P)
    (leftContent : Option Str) (rightPath : TrackedPath P) (rightContent : Option Str) : Option Str :=
  if leftContent = rightContent then none
  else
    let slashes := fun c => if c = '\\' then '/' else c
    let leftDisplay := (t.displayPath ops leftPath).map slashes
    let rightDisplay := (t.displayPath ops rightPath).map slashes
    let leftOid := (leftContent.map ops.gitBlobOid).getD zeroOid
    let rightOid := (rightContent.map ops.gitBlobOid).getD zeroOid
    let header := "diff --git a/".toList ++ leftDisplay ++ " b/".toList ++ rightDisplay ++ ['\n']
    let mode := match leftContent, rightContent with
      | none, some _ => "new file mode ".toList ++ regularFileMode ++ ['\n']
      | some _, none => "deleted file mode ".toList ++ regularFileMode ++ ['\n']
      | _, _ => []
    let index := "index ".toList ++ leftOid ++ "..".toList ++ rightOid ++ ['\n']
    let oldHeader := if leftContent.isSome then "a/".toList ++ leftDisplay else devNull
    let newHeader := if rightContent.isSome then "b/".toList ++ rightDisplay else devNull
    some (header ++ mode ++ index ++
      ops.unifiedDiff (leftContent.getD []) (rightContent.getD []) oldHeader newHeader)

/-- The variables of the loop of `refresh_unified_diff`. -/
structure Refresh (P : Type) where
  handled : List (TrackedPath P) := []
  previousDiffs : AList fun _ : DiffCacheKey P => Option Str
  renderedDiffs : AList fun _ : DiffCacheKey P => Option Str := ∅
  aggregated : Str := []

def pushDiff (aggregated diff : Str) : Str :=
  let aggregated := aggregated ++ diff
  if aggregated.getLast? = some '\n' then aggregated else aggregated ++ ['\n']

/-- Renders the diff of a path and the path it is paired with, from the cache if it is there. -/
def refreshPair (t : TurnDiffTracker P) (r : Refresh P) (leftPath rightPath : TrackedPath P) : Refresh P :=
  let leftContent := t.baselineByPath.lookup leftPath
  let rightContent := t.currentByPath.lookup rightPath
  let key : DiffCacheKey P := {
    leftPath := leftPath
    leftRevision := leftContent.map (·.revision)
    rightPath := rightPath
    rightRevision := rightContent.map (·.revision) }
  let rendered := (r.previousDiffs.lookup key).getD
    (t.renderDiff ops leftPath (leftContent.map (·.content)) rightPath (rightContent.map (·.content)))
  { r with
    previousDiffs := r.previousDiffs.erase key
    renderedDiffs := r.renderedDiffs.insert key rendered
    aggregated := match rendered with
      | some diff => pushDiff r.aggregated diff
      | none => r.aggregated }

/-- The body of the loop of `refresh_unified_diff`. -/
def refreshPath (t : TurnDiffTracker P)
    (renamePairs : AList fun _ : TrackedPath P => TrackedPath P) (r : Refresh P) (path : TrackedPath P) :
    Refresh P :=
  if path ∈ r.handled then r
  else
    let r := { r with handled := path :: r.handled }
    if path ∈ renamePairs.entries.map (·.2) then r
    else
      match renamePairs.lookup path with
      | some dest => t.refreshPair ops { r with handled := dest :: r.handled } path dest
      | none => t.refreshPair ops r path path

def refreshUnifiedDiff (t : TurnDiffTracker P) : TurnDiffTracker P :=
  let paths := t.baselineByPath.keys ++ t.currentByPath.keys
  let paths := (paths.insertionSort fun p q => t.displayPath ops p ≤ t.displayPath ops q).destutter (· ≠ ·)
  let r := paths.foldl (t.refreshPath ops t.renamePairs) { previousDiffs := t.renderedDiffs }
  { t with
    renderedDiffs := r.renderedDiffs
    unifiedDiff := if r.aggregated = [] then none else some r.aggregated }

/-- The pairs that the loop of `refresh_unified_diff` renders. -/
def pairsFrom (renames : AList fun _ : TrackedPath P => TrackedPath P) :
    List (TrackedPath P) → List (TrackedPath P) → List (TrackedPath P × TrackedPath P)
  | _, [] => []
  | handled, path :: paths =>
    if path ∈ handled then pairsFrom renames handled paths
    else if path ∈ renames.entries.map (·.2) then pairsFrom renames (path :: handled) paths
    else
      match renames.lookup path with
      | some dest => (path, dest) :: pairsFrom renames (dest :: path :: handled) paths
      | none => (path, path) :: pairsFrom renames (path :: handled) paths

def invalidate : TurnDiffTracker P :=
  { t with valid := false, renderedDiffs := ∅, unifiedDiff := none }

def trackDelta (t : TurnDiffTracker P) (environmentId : Str) (delta : AppliedPatchDelta P) : TurnDiffTracker P :=
  if !t.valid then t
  else if !delta.exact then t.invalidate
  else (delta.changes.foldl (applyChange environmentId) t).refreshUnifiedDiff ops

end TurnDiffTracker

end Dcode.TurnDiff
