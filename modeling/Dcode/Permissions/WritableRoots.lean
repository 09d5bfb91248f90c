import Dcode.Permissions.Policy

/-!
# The roots of a policy

What a sandbox is told about a policy: its readable, writable and unreadable roots
(`codex-rs/protocol/src/permissions.rs`). A writable root comes with the paths below it that stay read-only
and the names of the metadata directories that stay protected (`WritableRoot` of `protocol.rs`).
-/

namespace Dcode.Permissions

/-! ## Symlinks -/

variable (host : Host)

def Host.shouldPreserveLogicalPath (logical : AbsolutePathBuf) : Bool :=
  logical.ancestors.any fun ancestor =>
    host.node ancestor = some .symlink && 2 ≤ ancestor.components.length

def Host.canonicalizePreservingSymlinks (logical : AbsolutePathBuf) : AbsolutePathBuf :=
  match host.canonicalize logical with
  | some canonical =>
    if host.shouldPreserveLogicalPath logical && canonical ≠ logical then logical else canonical
  | none => logical

def normalizeEffectiveAbsolutePath (path : AbsolutePathBuf) : AbsolutePathBuf :=
  match path.ancestors.find? fun ancestor => (host.node ancestor).isSome with
  | some ancestor =>
    path.rebase ancestor.components.length (host.canonicalizePreservingSymlinks ancestor)
  | none => path

/-- Without symlinks every path leads to itself. -/
def Host.SymlinkFree : Prop :=
  ∀ path target, host.canonicalize path = some target → target = path

def dedupAbsolutePaths (paths : List AbsolutePathBuf) (normalizeEffectivePaths : Bool) : List AbsolutePathBuf :=
  (if normalizeEffectivePaths then paths.map (normalizeEffectiveAbsolutePath host) else paths).eraseDups

/-! ## Default read-only paths -/

def isGitPointerFile (path : AbsolutePathBuf) : Bool :=
  host.isFile path && path.fileName = some protectedMetadataGitPathName

def resolveGitdirFromFile (dotGit : AbsolutePathBuf) : Option AbsolutePathBuf := do
  let contents ← host.readToString dotGit
  let (before, gitdirRaw) ← Str.splitOnce ':' (Str.trim contents)
  if Str.trim before ≠ "gitdir".toList then none
  else
    let gitdirRaw := Str.trim gitdirRaw
    if gitdirRaw = [] ∨ dotGit = .root then none
    else
      let gitdirPath := AbsolutePathBuf.resolvePathAgainstBase host.process gitdirRaw dotGit.up
      if host.pathExists gitdirPath then some gitdirPath else none

def gitdirOf (root : AbsolutePathBuf) : Option AbsolutePathBuf :=
  let topLevelGit := root.join host.process protectedMetadataGitPathName
  if host.isFile topLevelGit && isGitPointerFile host topLevelGit then resolveGitdirFromFile host topLevelGit
  else none

def defaultReadOnlySubpathsForWritableRoot (writableRoot : AbsolutePathBuf)
    (protectMissingDotCodex : Bool) : List AbsolutePathBuf :=
  let topLevelGit := writableRoot.join host.process protectedMetadataGitPathName
  let topLevelAgents := writableRoot.join host.process protectedMetadataAgentsPathName
  let topLevelCodex := writableRoot.join host.process protectedMetadataCodexPathName
  let git :=
    if host.isDir topLevelGit || host.isFile topLevelGit then (gitdirOf host writableRoot).toList ++ [topLevelGit]
    else []
  let agents := if host.isDir topLevelAgents then [topLevelAgents] else []
  let codex := if protectMissingDotCodex || host.isDir topLevelCodex then [topLevelCodex] else []
  dedupAbsolutePaths host (git ++ agents ++ codex) false

/-! ## Writable roots -/

structure WritableRoot where
  root : AbsolutePathBuf
  readOnlySubpaths : List AbsolutePathBuf
  protectedMetadataNames : List Str
deriving DecidableEq

namespace WritableRoot

def pathContainsProtectedMetadataName (writable : WritableRoot) (path : Path) : Bool :=
  match path.stripPrefix writable.root with
  | none => false
  | some relativePath =>
    match relativePath.head? with
    | none => false
    | some firstComponent => writable.protectedMetadataNames.any fun name => firstComponent = name

def isPathWritable (writable : WritableRoot) (path : Path) : Bool :=
  if !path.startsWith writable.root then false
  else if writable.readOnlySubpaths.any fun subpath => path.startsWith subpath then false
  else !writable.pathContainsProtectedMetadataName path

end WritableRoot

def hasExplicitResolvedPathEntry (entries : List ResolvedFileSystemEntry) (path : AbsolutePathBuf) : Bool :=
  entries.any fun entry => entry.path = path

variable (policy : FileSystemSandboxPolicy)

def protectedMetadataNamesForWritableRoot
    (root : AbsolutePathBuf) (rawWritableRoots : List AbsolutePathBuf) (cwd : Path) : List Str :=
  protectedMetadataPathNames.filter fun metadataName =>
    let metadataPaths := (root :: rawWritableRoots).map fun path => path.join host.process metadataName
    metadataPaths.all fun metadataPath => !policy.canWritePathWithCwd host metadataPath.asPath cwd

/-- What `path` is below one spelling of a root, below `root` itself. -/
def mirroredPath (root path rawRoot : AbsolutePathBuf) : Option AbsolutePathBuf :=
  match path.stripPrefix rawRoot with
  | some (c :: suffix) => some (root.join host.process (['/'].intercalate (c :: suffix)))
  | _ => none

/-- The path below `root` at which an entry carves it out, if there is one. A path that is spelled below the
root stays as it is spelled. -/
def carveoutPath (root : AbsolutePathBuf) (rawWritableRoots : List AbsolutePathBuf)
    (path : AbsolutePathBuf) : Option AbsolutePathBuf :=
  let rawCarveoutPath :=
    if root ≠ .root then
      if path = root then none
      else if path.startsWith root then some path
      else rawWritableRoots.findSome? (mirroredPath host root path)
    else none
  match rawCarveoutPath with
  | some path => some path
  | none =>
    let effectivePath := normalizeEffectiveAbsolutePath host path
    if effectivePath = root ∨ ¬ effectivePath.startsWith root then none else some effectivePath

namespace FileSystemSandboxPolicy

def getReadableRootsWithCwd (host : Host) (cwd : Path) : List AbsolutePathBuf :=
  if policy.hasFullDiskReadAccess then []
  else
    let readable := (policy.resolvedEntriesWithCwd host cwd).filter fun entry =>
      entry.access.canRead && policy.canReadPathWithCwd host entry.path.asPath cwd
    dedupAbsolutePaths host (readable.map (·.path)) true

def writableEntries (host : Host) (cwd : Path) : List AbsolutePathBuf :=
  let writable := (policy.resolvedEntriesWithCwd host cwd).filter fun entry =>
    entry.access.canWrite && policy.canWritePathWithCwd host entry.path.asPath cwd
  writable.map (·.path)

/-- The `WritableRoot` of one root. -/
def writableRootFor (host : Host) (cwd : Path) (root : AbsolutePathBuf) : WritableRoot :=
  let resolvedEntries := policy.resolvedEntriesWithCwd host cwd
  let rawWritableRoots := (policy.writableEntries host cwd).filter fun path =>
    normalizeEffectiveAbsolutePath host path = root
  let protectMissingDotCodex :=
    (AbsolutePathBuf.fromAbsolutePath host.process cwd).any fun cwd =>
      normalizeEffectiveAbsolutePath host cwd = root
  let defaults := (defaultReadOnlySubpathsForWritableRoot host root protectMissingDotCodex).filter fun path =>
    !hasExplicitResolvedPathEntry resolvedEntries path
  -- narrower entries without write access carve out the root
  let carveouts := (resolvedEntries.filter fun entry =>
    !entry.access.canWrite && !policy.canWritePathWithCwd host entry.path.asPath cwd).filterMap fun entry =>
      carveoutPath host root rawWritableRoots entry.path
  { root
    readOnlySubpaths := dedupAbsolutePaths host (defaults ++ carveouts) false
    protectedMetadataNames := protectedMetadataNamesForWritableRoot host policy root rawWritableRoots cwd }

def getWritableRootsWithCwd (host : Host) (cwd : Path) : List WritableRoot :=
  if policy.hasFullDiskWriteAccess then []
  else (dedupAbsolutePaths host (policy.writableEntries host cwd) true).map (policy.writableRootFor host cwd)

def getUnreadableRootsWithCwd (host : Host) (cwd : Path) : List AbsolutePathBuf :=
  if policy.kind ≠ .restricted then []
  else
    let root := (AbsolutePathBuf.fromAbsolutePath host.process cwd).map absoluteRootPathForCwd
    let unreadable := (policy.resolvedEntriesWithCwd host cwd).filter fun entry =>
      entry.access = .deny && !policy.canReadPathWithCwd host entry.path.asPath cwd && root ≠ some entry.path
    dedupAbsolutePaths host (unreadable.map (·.path)) true

end FileSystemSandboxPolicy

end Dcode.Permissions
