import Dcode.Permissions.WritableRoots
import Mathlib.Data.Char
import Mathlib.Data.List.Destutter
import Mathlib.Data.List.Lex

/-!
# Semantic signatures

What `is_semantically_equivalent_to` compares: the roots of a policy, sorted, and its full-disk flags
(`codex-rs/protocol/src/permissions.rs`).
-/

namespace Dcode.Permissions

def sortedAbsolutePaths (paths : List AbsolutePathBuf) : List AbsolutePathBuf :=
  paths.insertionSort fun left right => left.components ≤ right.components

/-- The body of the loop of `sorted_writable_roots`. -/
def WritableRoot.sorted (writable : WritableRoot) : WritableRoot where
  root := writable.root
  readOnlySubpaths := sortedAbsolutePaths writable.readOnlySubpaths
  protectedMetadataNames := (writable.protectedMetadataNames.insertionSort (· ≤ ·)).destutter (· ≠ ·)

def sortedWritableRoots (roots : List WritableRoot) : List WritableRoot :=
  (roots.map WritableRoot.sorted).insertionSort fun left right => left.root.components ≤ right.root.components

structure FileSystemSemanticSignature where
  hasFullDiskReadAccess : Bool
  hasFullDiskWriteAccess : Bool
  includePlatformDefaults : Bool
  readableRoots : List AbsolutePathBuf
  writableRoots : List WritableRoot
  unreadableRoots : List AbsolutePathBuf
  unreadableGlobs : List Str
deriving DecidableEq

namespace FileSystemSandboxPolicy

/-- The pattern of a glob entry that denies access, below an absolute `cwd`. -/
def unreadableGlob (host : Host) (cwd : Path) (entry : FileSystemSandboxEntry) : Option Str :=
  match entry.path with
  | .globPattern pattern =>
    let base := AbsolutePathBuf.absolutizeFrom cwd .root
    some (AbsolutePathBuf.resolvePathAgainstBase host.process pattern base).asPath
  | .path _ | .special _ => none

def getUnreadableGlobsWithCwd (policy : FileSystemSandboxPolicy) (host : Host) (cwd : Path) : List Str :=
  if policy.kind ≠ .restricted then []
  else
    let patterns := (policy.entries.filter fun entry => entry.access = .deny).filterMap (unreadableGlob host cwd)
    (patterns.insertionSort (· ≤ ·)).destutter (· ≠ ·)

def semanticSignature (policy : FileSystemSandboxPolicy) (host : Host) (cwd : Path) : FileSystemSemanticSignature where
  hasFullDiskReadAccess := policy.hasFullDiskReadAccess
  hasFullDiskWriteAccess := policy.hasFullDiskWriteAccess
  includePlatformDefaults := policy.includePlatformDefaults
  readableRoots := sortedAbsolutePaths (policy.getReadableRootsWithCwd host cwd)
  writableRoots := sortedWritableRoots (policy.getWritableRootsWithCwd host cwd)
  unreadableRoots := sortedAbsolutePaths (policy.getUnreadableRootsWithCwd host cwd)
  unreadableGlobs := policy.getUnreadableGlobsWithCwd host cwd

def isSemanticallyEquivalentTo (policy other : FileSystemSandboxPolicy) (host : Host) (cwd : Path) : Bool :=
  policy.semanticSignature host cwd = other.semanticSignature host cwd

end FileSystemSandboxPolicy

end Dcode.Permissions
