import Dcode.Permissions.Policy

/-!
# Changing a policy

How a policy is widened by roots, takes over the denials of another one, and has its project roots replaced by
paths (`codex-rs/protocol/src/permissions.rs`).
-/

namespace Dcode.Permissions

/-! ## Project roots -/

def projectRootsGlobPatternPrefix : Str := "codex-project-roots://".toList

def parseProjectRootsGlobPattern (pattern : Str) : Option Str :=
  Str.stripPrefix projectRootsGlobPatternPrefix pattern

def resolveProjectRootsGlobPattern (host : Host) (subpath : Str) (root : AbsolutePathBuf) : Str :=
  (AbsolutePathBuf.resolvePathAgainstBase host.process subpath root).asPath

def materializePath (host : Host) (cwd : Option AbsolutePathBuf) : FileSystemPath → FileSystemPath
  | .special (.projectRoots subpath) =>
    match resolveFileSystemPath host (.special (.projectRoots subpath)) cwd with
    | some path => .path path
    | none => .special (.projectRoots subpath)
  | .globPattern pattern =>
    match cwd, parseProjectRootsGlobPattern pattern with
    | some cwd, some subpath => .globPattern (resolveProjectRootsGlobPattern host subpath cwd)
    | _, _ => .globPattern pattern
  | path => path

namespace FileSystemSandboxPolicy

variable (policy : FileSystemSandboxPolicy)

def materializeProjectRootsWithCwd (host : Host) (cwd : Path) : FileSystemSandboxPolicy :=
  let cwd := AbsolutePathBuf.fromAbsolutePath host.process cwd
  { policy with entries := policy.entries.map fun entry =>
      { entry with path := materializePath host cwd entry.path } }

/-! ## Roots -/

def push (entry : FileSystemSandboxEntry) : FileSystemSandboxPolicy :=
  { policy with entries := policy.entries ++ [entry] }

def withAdditionalReadableRoots (host : Host) (cwd : Path)
    (additionalReadableRoots : List AbsolutePathBuf) : FileSystemSandboxPolicy :=
  if policy.hasFullDiskReadAccess then policy
  else additionalReadableRoots.foldl (fun policy path =>
    if policy.canReadPathWithCwd host path.asPath cwd then policy
    else policy.push ⟨.path path, .read, none⟩) policy

def withAdditionalWritableRoots (host : Host) (cwd : Path)
    (additionalWritableRoots : List AbsolutePathBuf) : FileSystemSandboxPolicy :=
  additionalWritableRoots.foldl (fun policy path =>
    if policy.canWritePathWithCwd host path.asPath cwd then policy
    else policy.push ⟨.path path, .write, none⟩) policy

/-! ## Denials -/

def preserveDenyReadRestrictionsFrom (policy existing : FileSystemSandboxPolicy) : FileSystemSandboxPolicy :=
  let hasDenyReadEntries := existing.entries.any fun entry => entry.access = .deny
  let policy :=
    if policy.kind = .unrestricted && hasDenyReadEntries then restricted [⟨.special .root, .write, none⟩]
    else policy
  if policy.kind ≠ .restricted then policy
  else (existing.entries.filter fun entry => entry.access = .deny).foldl (fun policy denyEntry =>
    if denyEntry ∈ policy.entries then policy else policy.push denyEntry) policy

end FileSystemSandboxPolicy

end Dcode.Permissions
