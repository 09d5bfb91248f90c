import Dcode.AbsolutePath
import Dcode.Lib.MostSpecific

/-!
# File-system permissions

`FileSystemSandboxPolicy` of `codex-rs/protocol/src/permissions.rs`, on Unix: entries that grant or deny
access to paths, how they resolve against a working directory, and the access that results for one path.
-/

namespace Dcode.Permissions

/-! ## The host -/

/-- What is found at a path, without following symlinks; the text of a file is missing if it cannot be read
as text. -/
inductive Node where
  | dir
  | file (text : Option Str)
  | symlink
  | other
deriving DecidableEq

structure Host where
  process : ProcessEnv
  tmpdir : Option Str
  node : AbsolutePathBuf → Option Node
  /-- `canonicalize`: where a path leads if it exists. -/
  canonicalize : AbsolutePathBuf → Option AbsolutePathBuf

namespace Host

/-- What a path leads to. -/
def target (host : Host) (path : AbsolutePathBuf) : Option Node := (host.canonicalize path).bind host.node

def isDir (host : Host) (path : AbsolutePathBuf) : Bool := host.target path = some .dir

def isFile (host : Host) (path : AbsolutePathBuf) : Bool :=
  match host.target path with
  | some (.file _) => true
  | _ => false

def pathExists (host : Host) (path : AbsolutePathBuf) : Bool := (host.target path).isSome

def readToString (host : Host) (path : AbsolutePathBuf) : Option Str :=
  match host.target path with
  | some (.file text) => text
  | _ => none

end Host

/-! ## Entries -/

inductive FileSystemAccessMode where
  | read
  | write
  | deny
deriving DecidableEq

namespace FileSystemAccessMode

def rank : FileSystemAccessMode → Nat
  | read => 0
  | write => 1
  | deny => 2

theorem rank_injective : Function.Injective rank := by
  intro a b h
  cases a <;> cases b <;> first | rfl | cases h

instance : LinearOrder FileSystemAccessMode := LinearOrder.lift' rank rank_injective

def canRead (access : FileSystemAccessMode) : Bool := access ≠ deny

def canWrite (access : FileSystemAccessMode) : Bool := access = write

end FileSystemAccessMode

inductive FileSystemSpecialPath where
  | root
  | minimal
  | projectRoots (subpath : Option Str)
  | tmpdir
  | slashTmp
  | unknown (path : Str) (subpath : Option Str)
deriving DecidableEq

inductive FileSystemPath where
  | path (path : AbsolutePathBuf)
  | globPattern (pattern : Str)
  | special (value : FileSystemSpecialPath)
deriving DecidableEq

inductive MissingPathBehavior where
  | skip
deriving DecidableEq

structure FileSystemSandboxEntry where
  path : FileSystemPath
  access : FileSystemAccessMode
  missingPathBehavior : Option MissingPathBehavior := none
deriving DecidableEq

def FileSystemSandboxEntry.skipMissingPath (path : FileSystemPath) (access : FileSystemAccessMode) :
    FileSystemSandboxEntry :=
  ⟨path, access, some .skip⟩

inductive FileSystemSandboxKind where
  | restricted
  | unrestricted
  | externalSandbox
deriving DecidableEq

structure FileSystemSandboxPolicy where
  kind : FileSystemSandboxKind
  entries : List FileSystemSandboxEntry
deriving DecidableEq

@[ext]
structure ResolvedFileSystemEntry where
  path : AbsolutePathBuf
  access : FileSystemAccessMode
deriving DecidableEq

/-! ## Protected metadata -/

def protectedMetadataGitPathName : Str := ".git".toList
def protectedMetadataAgentsPathName : Str := ".agents".toList
def protectedMetadataCodexPathName : Str := ".codex".toList

def protectedMetadataPathNames : List Str :=
  [protectedMetadataGitPathName, protectedMetadataAgentsPathName, protectedMetadataCodexPathName]

def metadataPathName (name : Str) : Option Str := protectedMetadataPathNames.find? fun metadata => name = metadata

/-! ## Resolving entries -/

def slashTmp : AbsolutePathBuf := ⟨["tmp".toList], by decide⟩

def resolveFileSystemSpecialPath (host : Host) (value : FileSystemSpecialPath)
    (cwd : Option AbsolutePathBuf) : Option AbsolutePathBuf :=
  match value with
  | .root | .minimal | .unknown _ _ => none
  | .projectRoots subpath => do
    let cwd ← cwd
    match subpath with
    | some subpath => return .resolvePathAgainstBase host.process subpath cwd
    | none => return cwd
  | .tmpdir => do
    let tmpdir ← host.tmpdir
    if tmpdir = [] then none else AbsolutePathBuf.fromAbsolutePath host.process tmpdir
  | .slashTmp => if host.isDir slashTmp then some slashTmp else none

def resolveFileSystemPath (host : Host) (path : FileSystemPath) (cwd : Option AbsolutePathBuf) :
    Option AbsolutePathBuf :=
  match path with
  | .path path => some path
  | .globPattern _ => none
  | .special value => resolveFileSystemSpecialPath host value cwd

def absoluteRootPathForCwd (_cwd : AbsolutePathBuf) : AbsolutePathBuf := .root

def resolveEntryPath (host : Host) (path : FileSystemPath) (cwd : Option AbsolutePathBuf) : Option AbsolutePathBuf :=
  match path with
  | .special .root => cwd.map absoluteRootPathForCwd
  | _ => resolveFileSystemPath host path cwd

def resolveCandidatePath (host : Host) (path cwd : Path) : Option AbsolutePathBuf :=
  if path.isAbsolute then AbsolutePathBuf.fromAbsolutePath host.process path
  else (AbsolutePathBuf.fromAbsolutePath host.process cwd).map fun cwd => cwd.join host.process path

/-- `resolved_entry_precedence`; the root directory counts as a component. -/
def resolvedEntryPrecedence (entry : ResolvedFileSystemEntry) : Nat ×ₗ FileSystemAccessMode :=
  toLex (entry.path.components.length + 1, entry.access)

/-! ## Shared targets -/

def specialPathsShareTarget (left right : FileSystemSpecialPath) : Bool :=
  match left, right with
  | .root, .root | .minimal, .minimal | .tmpdir, .tmpdir | .slashTmp, .slashTmp => true
  | .projectRoots left, .projectRoots right => left = right
  | .unknown left leftSubpath, .unknown right rightSubpath => left = right && leftSubpath = rightSubpath
  | _, _ => false

def specialPathMatchesAbsolutePath (value : FileSystemSpecialPath) (path : AbsolutePathBuf) : Bool :=
  match value with
  | .root => path = .root
  | .slashTmp => path = slashTmp
  | _ => false

def fileSystemPathsShareTarget (left right : FileSystemPath) : Bool :=
  match left, right with
  | .path left, .path right => left = right
  | .special left, .special right => specialPathsShareTarget left right
  | .path path, .special value | .special value, .path path => specialPathMatchesAbsolutePath value path
  | .globPattern left, .globPattern right => left = right
  | .globPattern _, _ | _, .globPattern _ => false

namespace FileSystemSandboxPolicy

def restricted (entries : List FileSystemSandboxEntry) : FileSystemSandboxPolicy := ⟨.restricted, entries⟩

def unrestricted : FileSystemSandboxPolicy := ⟨.unrestricted, []⟩

def externalSandbox : FileSystemSandboxPolicy := ⟨.externalSandbox, []⟩

/-! ## Full-disk access -/

variable (policy : FileSystemSandboxPolicy)

def hasRootAccess (predicate : FileSystemAccessMode → Bool) : Bool :=
  policy.kind = .restricted &&
    policy.entries.any fun entry => entry.path = .special .root && predicate entry.access

def hasDeniedReadRestrictions : Bool :=
  policy.kind = .restricted && policy.entries.any fun entry => entry.access = .deny

def hasSameTargetWriteOverride (entry : FileSystemSandboxEntry) : Bool :=
  policy.entries.any fun candidate =>
    candidate.access.canWrite && entry.access < candidate.access &&
      fileSystemPathsShareTarget candidate.path entry.path

/-- An entry that reduces a `:root` write grant. -/
def narrowsWrite (entry : FileSystemSandboxEntry) : Bool :=
  if entry.access.canWrite then false
  else
    match entry.path with
    | .path _ => !policy.hasSameTargetWriteOverride entry
    | .globPattern _ => true
    | .special .root => entry.access = .deny
    | .special .minimal | .special (.unknown _ _) => false
    | .special _ => !policy.hasSameTargetWriteOverride entry

def hasWriteNarrowingEntries : Bool :=
  policy.kind = .restricted && policy.entries.any policy.narrowsWrite

def hasFullDiskReadAccess : Bool :=
  match policy.kind with
  | .unrestricted | .externalSandbox => true
  | .restricted => policy.hasRootAccess FileSystemAccessMode.canRead && !policy.hasDeniedReadRestrictions

def hasFullDiskWriteAccess : Bool :=
  match policy.kind with
  | .unrestricted | .externalSandbox => true
  | .restricted => policy.hasRootAccess FileSystemAccessMode.canWrite && !policy.hasWriteNarrowingEntries

def includePlatformDefaults : Bool :=
  !policy.hasFullDiskReadAccess && policy.kind = .restricted &&
    policy.entries.any fun entry => entry.path = .special .minimal && entry.access.canRead

/-! ## Access to a path -/

def resolvedEntriesWithCwd (host : Host) (cwd : Path) : List ResolvedFileSystemEntry :=
  let cwdAbsolute := AbsolutePathBuf.fromAbsolutePath host.process cwd
  policy.entries.filterMap fun entry =>
    (resolveEntryPath host entry.path cwdAbsolute).map fun path => ⟨path, entry.access⟩

def resolveAccessWithCwd (host : Host) (path cwd : Path) : FileSystemAccessMode :=
  match policy.kind with
  | .unrestricted | .externalSandbox => .write
  | .restricted =>
    match resolveCandidatePath host path cwd with
    | none => .deny
    | some path =>
      let covering := (policy.resolvedEntriesWithCwd host cwd).filter fun entry => path.startsWith entry.path
      ((maxByKey resolvedEntryPrecedence covering).map (·.access)).getD .deny

def canReadPathWithCwd (host : Host) (path cwd : Path) : Bool :=
  (policy.resolveAccessWithCwd host path cwd).canRead

end FileSystemSandboxPolicy

def metadataChild (host : Host) (target : AbsolutePathBuf) (entry : ResolvedFileSystemEntry) :
    Option (AbsolutePathBuf × Str) := do
  let relativePath ← target.stripPrefix entry.path
  let firstComponent ← relativePath.head?
  let metadataName ← metadataPathName firstComponent
  return (entry.path.join host.process metadataName, metadataName)

def metadataChildOfWritableRoot (host : Host) (policy : FileSystemSandboxPolicy) (target : AbsolutePathBuf)
    (cwd : Path) : Option (AbsolutePathBuf × Str) :=
  (((policy.resolvedEntriesWithCwd host cwd).filter fun entry => entry.access.canWrite).filterMap
    (metadataChild host target)).head?

def hasExplicitWriteEntryForMetadataPath (host : Host) (policy : FileSystemSandboxPolicy)
    (protectedMetadataPath target : AbsolutePathBuf) (cwd : Path) : Bool :=
  (policy.resolvedEntriesWithCwd host cwd).any fun entry =>
    entry.access.canWrite && target.startsWith entry.path && entry.path.startsWith protectedMetadataPath

namespace FileSystemSandboxPolicy

def isMetadataWriteDenied (policy : FileSystemSandboxPolicy) (host : Host) (path cwd : Path) : Bool :=
  if policy.kind ≠ .restricted then false
  else
    match resolveCandidatePath host path cwd with
    | none => true
    | some target =>
      match metadataChildOfWritableRoot host policy target cwd with
      | none => false
      | some (protectedMetadataPath, _) =>
        !hasExplicitWriteEntryForMetadataPath host policy protectedMetadataPath target cwd

def canWritePathWithCwd (policy : FileSystemSandboxPolicy) (host : Host) (path cwd : Path) : Bool :=
  if !(policy.resolveAccessWithCwd host path cwd).canWrite then false
  else if policy.hasFullDiskWriteAccess then true
  else !policy.isMetadataWriteDenied host path cwd

end FileSystemSandboxPolicy

end Dcode.Permissions
