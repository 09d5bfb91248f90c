import Dcode.Lib.Str

/-!
# Listing the threads of the rollout files

Threads are listed in pages, newest first by the time in the file name or by the time of the last change. The cursor
behind a page is the time of its last thread.
-/

namespace Dcode.Rollout

/-- `PathBuf`: the components of a path. -/
abbrev PathBuf := List Str

/-- `OffsetDateTime`: the nanoseconds since the Unix epoch. -/
abbrev OffsetDateTime := Int

abbrev Uuid := Nat

def maxScanFiles : Nat := 10000

/-- What the listing takes from the `time` and `uuid` crates and from the file system: the RFC 3339 text of a time, the
times `[year]-[month]-[day]T[hour]-[minute]-[second]` of file names, the ids, and whether two paths are one directory. -/
structure ListOps where
  format : OffsetDateTime → Option Str
  parse : Str → Option OffsetDateTime
  parseDateTime : Str → Option OffsetDateTime
  parseUuid : Str → Option Uuid
  pathsMatchAfterNormalization : PathBuf → PathBuf → Bool

/-! ## Rollout files -/

structure HeadTailSummary (SessionSource : Type) where
  sawSessionMeta : Bool := false
  preview : Option Str := none
  cwd : Option PathBuf := none
  source : Option SessionSource := none
  modelProvider : Option Str := none
  createdAt : Option Str := none
  updatedAt : Option Str := none

/-- A file of a directory: its path, the time of its last change if that is known, and the summary that is read from its
head, or the default one where that fails. -/
structure DirEntry (SessionSource : Type) where
  path : PathBuf
  modified : Option OffsetDateTime
  head : HeadTailSummary SessionSource

variable {SessionSource : Type}

def truncateToMillis (dt : OffsetDateTime) : OffsetDateTime := dt - dt % 1000000

def fileModifiedTime (file : DirEntry SessionSource) : Option OffsetDateTime := file.modified.map truncateToMillis

def stripSuffix (suffix s : Str) : Option Str := (Str.stripPrefix suffix.reverse s.reverse).map List.reverse

def parseRolloutFileName (name : Str) : Option Str :=
  let name := (stripSuffix ".zst".toList name).getD name
  if "rollout-".toList.isPrefixOf name && ".jsonl".toList.isSuffixOf name then some name else none

def plainRolloutPath (path : PathBuf) : PathBuf :=
  match path.getLast?.bind (stripSuffix ".zst".toList) with
  | some plainFileName => path.dropLast ++ [plainFileName]
  | none => path

def isCompressedRolloutPath (path : PathBuf) : Bool :=
  path.getLast?.any (".jsonl.zst".toList.isSuffixOf ·)

def shouldSkipCompressedSibling (directory : List (DirEntry SessionSource)) (path : PathBuf) : Bool :=
  isCompressedRolloutPath path && directory.any (·.path == plainRolloutPath path)

def splitsAt (c : Char) : Str → List (Str × Str)
  | [] => []
  | d :: s =>
    let later := (splitsAt c s).map fun parts => (d :: parts.1, parts.2)
    if d = c then ([], s) :: later else later

def parseTimestampUuidFromFilename (ops : ListOps) (name : Str) : Option (OffsetDateTime × Uuid) := do
  let name ← parseRolloutFileName name
  let core ← (Str.stripPrefix "rollout-".toList name).bind (stripSuffix ".jsonl".toList)
  let (tsStr, uuid) ← (splitsAt '-' core).reverse.findSome? fun parts => (ops.parseUuid parts.2).map (parts.1, ·)
  let ts ← ops.parseDateTime tsStr
  some (ts, uuid)

structure RolloutFile (SessionSource : Type) where
  ts : OffsetDateTime
  id : Uuid
  entry : DirEntry SessionSource

def RolloutFile.fromPath (ops : ListOps) (directory : List (DirEntry SessionSource)) (entry : DirEntry SessionSource) :
    Option (RolloutFile SessionSource) := do
  let fileName ← entry.path.getLast?
  let plainFileName ← parseRolloutFileName fileName
  if shouldSkipCompressedSibling directory entry.path then none
  else
    let (ts, id) ← parseTimestampUuidFromFilename ops plainFileName
    some { ts, id, entry }

def Newer (left right : RolloutFile SessionSource) : Prop :=
  right.ts < left.ts ∨ right.ts = left.ts ∧ right.id ≤ left.id

instance instDecidableNewer : DecidableRel (@Newer SessionSource) := fun left right =>
  inferInstanceAs (Decidable (right.ts < left.ts ∨ right.ts = left.ts ∧ right.id ≤ left.id))

/-! ## Loops -/

/-- Whether a loop goes on. -/
inductive ControlFlow where
  | continue
  | break
deriving DecidableEq

/-- What follows in a loop, unless it is left. -/
def andThen {σ : Type} : σ × ControlFlow → (σ → σ × ControlFlow) → σ × ControlFlow
  | (st, .continue), rest => rest st
  | (st, .break), _ => (st, .break)

/-- A `for` loop with a state, until it is left. -/
def forEach {α σ : Type} (body : σ → α → σ × ControlFlow) : List α → σ → σ × ControlFlow
  | [], st => (st, .continue)
  | a :: rest, st => andThen (body st a) (forEach body rest)

/-! ## The directories -/

/-- The directory of the sessions: the directories of its years, months and days by their numbers, and its own files, all
in the order in which the system reads them. Every file has a path of its own. -/
structure SessionsRoot (SessionSource : Type) where
  years : List (Nat × List (Nat × List (Nat × List (DirEntry SessionSource))))
  files : List (DirEntry SessionSource)
  nodup_nested : ((years.flatMap fun year => year.2.flatMap fun month => month.2.flatMap fun day => day.2).map
    DirEntry.path).Nodup
  nodup_files : (files.map DirEntry.path).Nodup

def collectDirsDesc {α : Type} (dirs : List (Nat × α)) : List (Nat × α) :=
  dirs.insertionSort fun left right => right.1 ≤ left.1

def collectRolloutDayFiles (ops : ListOps) (day : List (DirEntry SessionSource)) : List (RolloutFile SessionSource) :=
  (day.filterMap (RolloutFile.fromPath ops day)).insertionSort Newer

section Walk

variable {σ : Type} (ops : ListOps) (visit : σ → RolloutFile SessionSource → Nat → σ × ControlFlow)

/-- The loops of `walk_rollout_files` over the files of a day, the days, the months and the years. Every `break` leaves
the outermost one. -/
def walkFile (st : Nat × σ) (file : RolloutFile SessionSource) : (Nat × σ) × ControlFlow :=
  let scanned := st.1 + 1
  if scanned > maxScanFiles then ((scanned, st.2), .break)
  else
    let (visitor, flow) := visit st.2 file scanned
    ((scanned, visitor), flow)

@[inherit_doc walkFile]
def walkDay (st : Nat × σ) (day : Nat × List (DirEntry SessionSource)) : (Nat × σ) × ControlFlow :=
  if st.1 ≥ maxScanFiles then (st, .break) else forEach (walkFile visit) (collectRolloutDayFiles ops day.2) st

@[inherit_doc walkFile]
def walkMonth (st : Nat × σ) (month : Nat × List (Nat × List (DirEntry SessionSource))) : (Nat × σ) × ControlFlow :=
  if st.1 ≥ maxScanFiles then (st, .break) else forEach (walkDay ops visit) (collectDirsDesc month.2) st

@[inherit_doc walkFile]
def walkYear (st : Nat × σ) (year : Nat × List (Nat × List (Nat × List (DirEntry SessionSource)))) :
    (Nat × σ) × ControlFlow :=
  if st.1 ≥ maxScanFiles then (st, .break) else forEach (walkMonth ops visit) (collectDirsDesc year.2) st

def walkRolloutFiles (root : SessionsRoot SessionSource) (scannedFiles : Nat) (visitor : σ) : Nat × σ :=
  (forEach (walkYear ops visit) (collectDirsDesc root.years) (scannedFiles, visitor)).1

end Walk

def collectFlatStep (ops : ListOps) (directory : List (DirEntry SessionSource))
    (st : Nat × List (RolloutFile SessionSource)) (entry : DirEntry SessionSource) :
    (Nat × List (RolloutFile SessionSource)) × ControlFlow :=
  if st.1 ≥ maxScanFiles then (st, .break)
  else
    match RolloutFile.fromPath ops directory entry with
    | none => (st, .continue)
    | some file => ((st.1 + 1, st.2 ++ [file]), .continue)

def collectFlat (ops : ListOps) (root : SessionsRoot SessionSource) : Nat × List (RolloutFile SessionSource) :=
  (forEach (collectFlatStep ops root.files) root.files (0, [])).1

def RolloutFile.byUpdatedAt (file : RolloutFile SessionSource) : RolloutFile SessionSource :=
  { file with ts := (fileModifiedTime file.entry).getD 0 }

def visitByUpdatedAt (candidates : List (RolloutFile SessionSource)) (file : RolloutFile SessionSource) (_scanned : Nat) :
    List (RolloutFile SessionSource) × ControlFlow :=
  (candidates ++ [file.byUpdatedAt], .continue)

/-! ## The listing order -/

inductive ThreadSortKey where
  | createdAt
  | updatedAt
  | recencyAt
deriving DecidableEq

inductive ThreadListLayout where
  | nestedByDate
  | flat
deriving DecidableEq

section

variable (ops : ListOps) (root : SessionsRoot SessionSource)

/-- The rollout files of the directories, from the last day on and newest first on each day. -/
def nestedFiles : List (RolloutFile SessionSource) :=
  (collectDirsDesc root.years).flatMap fun year => (collectDirsDesc year.2).flatMap fun month =>
    (collectDirsDesc month.2).flatMap fun day => collectRolloutDayFiles ops day.2

/-- The rollout files of the directory itself. -/
def flatFiles : List (RolloutFile SessionSource) :=
  root.files.filterMap (RolloutFile.fromPath ops root.files)

/-- The rollout files of a layout. -/
def rolloutFiles : ThreadListLayout → List (RolloutFile SessionSource)
  | .nestedByDate => nestedFiles ops root
  | .flat => flatFiles ops root

def listedFiles (sortKey : ThreadSortKey) (layout : ThreadListLayout) : List (RolloutFile SessionSource) :=
  match layout, sortKey with
  | .nestedByDate, .createdAt => nestedFiles ops root
  | .flat, .createdAt => (flatFiles ops root).insertionSort Newer
  | layout, _ => ((rolloutFiles ops root layout).map RolloutFile.byUpdatedAt).insertionSort Newer

end

/-! ## Threads and filters -/

structure ThreadListConfig (SessionSource : Type) where
  allowedSources : List SessionSource
  modelProviders : Option (List Str)
  cwdFilters : Option (List PathBuf)
  defaultProvider : Str
  layout : ThreadListLayout

structure ThreadItem (SessionSource : Type) where
  path : PathBuf
  preview : Option Str
  cwd : Option PathBuf
  source : Option SessionSource
  modelProvider : Option Str
  createdAt : Option Str
  updatedAt : Option Str
  recencyAt : Option Str
deriving DecidableEq

structure ProviderMatcher where
  filters : List Str
  matchesDefaultProvider : Bool

def ProviderMatcher.new (filters : List Str) (defaultProvider : Str) : Option ProviderMatcher :=
  if filters.isEmpty then none else some { filters, matchesDefaultProvider := filters.contains defaultProvider }

def ProviderMatcher.matches (matcher : ProviderMatcher) : Option Str → Bool
  | some provider => matcher.filters.contains provider
  | none => matcher.matchesDefaultProvider

section

variable [DecidableEq SessionSource]

def buildThreadItem (ops : ListOps) (config : ThreadListConfig SessionSource) (file : DirEntry SessionSource)
    (updatedAt : Option Str) : Option (ThreadItem SessionSource) :=
  let summary := file.head
  let providerMatcher := config.modelProviders.bind (ProviderMatcher.new · config.defaultProvider)
  if !config.allowedSources.isEmpty && !summary.source.any (config.allowedSources.contains ·) then none
  else if providerMatcher.any (!·.matches summary.modelProvider) then none
  else if config.cwdFilters.any fun filters =>
      !summary.cwd.any fun cwd => filters.any (ops.pathsMatchAfterNormalization cwd ·) then none
  else if summary.sawSessionMeta && summary.preview.isSome then
    let updatedAt := summary.updatedAt.or (updatedAt.or summary.createdAt)
    some
      { path := file.path
        preview := summary.preview
        cwd := summary.cwd
        source := summary.source
        modelProvider := summary.modelProvider
        createdAt := summary.createdAt
        updatedAt
        recencyAt := updatedAt }
  else none

def threadItem? (ops : ListOps) (config : ThreadListConfig SessionSource) (file : DirEntry SessionSource) :
    Option (ThreadItem SessionSource) :=
  buildThreadItem ops config file ((fileModifiedTime file).bind ops.format)

end

/-! ## Cursors -/

structure Cursor where
  ts : OffsetDateTime
  id : Option Uuid := none
deriving DecidableEq

def buildNextCursor (ops : ListOps) (items : List (ThreadItem SessionSource)) (sortKey : ThreadSortKey) :
    Option Cursor := do
  let last ← items.getLast?
  let fileName ← last.path.getLast?
  let (createdTs, id) ← parseTimestampUuidFromFilename ops fileName
  match sortKey with
  | .createdAt => some { ts := createdTs }
  | .updatedAt => (last.updatedAt.bind ops.parse).map ({ ts := · })
  | .recencyAt => ((last.recencyAt.or last.updatedAt).bind ops.parse).map ({ ts := ·, id := some id })

/-! ## A page -/

structure AnchorState where
  ts : OffsetDateTime
  passed : Bool

def AnchorState.new : Option Cursor → AnchorState
  | some cursor => { ts := cursor.ts, passed := false }
  | none => { ts := 0, passed := true }

/-- `AnchorState::should_skip`. The id is not looked at. -/
def AnchorState.shouldSkip (anchor : AnchorState) (ts : OffsetDateTime) (_id : Uuid) : AnchorState × Bool :=
  if anchor.passed then (anchor, false)
  else if ts < anchor.ts then ({ anchor with passed := true }, false)
  else (anchor, true)

/-- The threads that a page has so far. -/
structure PageState (SessionSource : Type) where
  items : List (ThreadItem SessionSource)
  anchorState : AnchorState
  moreMatchesAvailable : Bool

/-- The page before the first file. -/
def PageState.start (anchor : Option Cursor) : PageState SessionSource :=
  { items := [], anchorState := AnchorState.new anchor, moreMatchesAvailable := false }

structure ThreadsPage (SessionSource : Type) where
  items : List (ThreadItem SessionSource) := []
  nextCursor : Option Cursor := none
  numScannedFiles : Nat := 0
  reachedScanCap : Bool := false

/-- The page at the end of a traversal. -/
def PageState.finish (ops : ListOps) (sortKey : ThreadSortKey) (scannedFiles : Nat) (st : PageState SessionSource) :
    ThreadsPage SessionSource :=
  let reachedScanCap := decide (scannedFiles ≥ maxScanFiles)
  let moreMatchesAvailable := st.moreMatchesAvailable || reachedScanCap && !st.items.isEmpty
  { items := st.items
    nextCursor := if moreMatchesAvailable then buildNextCursor ops st.items sortKey else none
    numScannedFiles := scannedFiles
    reachedScanCap }

variable [DecidableEq SessionSource] (ops : ListOps)

/-- The body of the loops over the files in their order. -/
def pageStep (config : ThreadListConfig SessionSource) (pageSize : Nat) (st : PageState SessionSource)
    (file : RolloutFile SessionSource) : PageState SessionSource × ControlFlow :=
  let (anchorState, skip) := st.anchorState.shouldSkip file.ts file.id
  let st := { st with anchorState }
  if skip then (st, .continue)
  else if st.items.length = pageSize then ({ st with moreMatchesAvailable := true }, .break)
  else
    match threadItem? ops config file.entry with
    | some item => ({ st with items := st.items ++ [item] }, .continue)
    | none => (st, .continue)

def visitByCreatedAt (config : ThreadListConfig SessionSource) (pageSize : Nat)
    (st : PageState SessionSource) (file : RolloutFile SessionSource) (scanned : Nat) :
    PageState SessionSource × ControlFlow :=
  if scanned ≥ maxScanFiles && st.items.length ≥ pageSize then ({ st with moreMatchesAvailable := true }, .break)
  else pageStep ops config pageSize st file

/-! ## The traversals -/

variable (root : SessionsRoot SessionSource) (pageSize : Nat)

def traverseDirectoriesForPathsCreated
    (anchor : Option Cursor) (config : ThreadListConfig SessionSource) : ThreadsPage SessionSource :=
  let (scannedFiles, st) := walkRolloutFiles ops (visitByCreatedAt ops config pageSize) root 0 (PageState.start anchor)
  st.finish ops .createdAt scannedFiles

def traverseDirectoriesForPathsUpdated
    (anchor : Option Cursor) (config : ThreadListConfig SessionSource) : ThreadsPage SessionSource :=
  let (scannedFiles, candidates) := walkRolloutFiles ops visitByUpdatedAt root 0 []
  let st := (forEach (pageStep ops config pageSize) (candidates.insertionSort Newer) (PageState.start anchor)).1
  st.finish ops .updatedAt scannedFiles

def traverseFlatPathsCreated
    (anchor : Option Cursor) (config : ThreadListConfig SessionSource) : ThreadsPage SessionSource :=
  let (scannedFiles, files) := collectFlat ops root
  let st := (forEach (pageStep ops config pageSize) (files.insertionSort Newer) (PageState.start anchor)).1
  st.finish ops .createdAt scannedFiles

def traverseFlatPathsUpdated
    (anchor : Option Cursor) (config : ThreadListConfig SessionSource) : ThreadsPage SessionSource :=
  let (scannedFiles, files) := collectFlat ops root
  let candidates := files.map RolloutFile.byUpdatedAt
  let st := (forEach (pageStep ops config pageSize) (candidates.insertionSort Newer) (PageState.start anchor)).1
  st.finish ops .updatedAt scannedFiles

def traverseDirectoriesForPaths
    (anchor : Option Cursor) (sortKey : ThreadSortKey) (config : ThreadListConfig SessionSource) :
    ThreadsPage SessionSource :=
  match sortKey with
  | .createdAt => traverseDirectoriesForPathsCreated ops root pageSize anchor config
  | .updatedAt | .recencyAt => traverseDirectoriesForPathsUpdated ops root pageSize anchor config

def traverseFlatPaths (anchor : Option Cursor)
    (sortKey : ThreadSortKey) (config : ThreadListConfig SessionSource) : ThreadsPage SessionSource :=
  match sortKey with
  | .createdAt => traverseFlatPathsCreated ops root pageSize anchor config
  | .updatedAt | .recencyAt => traverseFlatPathsUpdated ops root pageSize anchor config

def getThreadsInRoot (root : Option (SessionsRoot SessionSource)) (pageSize : Nat) (cursor : Option Cursor)
    (sortKey : ThreadSortKey) (config : ThreadListConfig SessionSource) : ThreadsPage SessionSource :=
  match root with
  | none => {}
  | some root =>
    match config.layout with
    | .nestedByDate => traverseDirectoriesForPaths ops root pageSize cursor sortKey config
    | .flat => traverseFlatPaths ops root pageSize cursor sortKey config

end Dcode.Rollout
