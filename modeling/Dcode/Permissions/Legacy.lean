import Dcode.Permissions.Signature

/-!
# Legacy sandbox policies

`SandboxPolicy` of `codex-rs/protocol/src/protocol.rs`, the projection of a file-system policy to it, and
`needs_direct_runtime_enforcement`, which decides whether the projection is good enough
(`codex-rs/protocol/src/permissions.rs`).
-/

namespace Dcode.Permissions

inductive NetworkAccess where
  | restricted
  | enabled
deriving DecidableEq

inductive NetworkSandboxPolicy where
  | restricted
  | enabled
deriving DecidableEq

def NetworkSandboxPolicy.isEnabled (policy : NetworkSandboxPolicy) : Bool := policy = enabled

inductive SandboxPolicy where
  | dangerFullAccess
  | readOnly (networkAccess : Bool)
  | externalSandbox (networkAccess : NetworkAccess)
  | workspaceWrite (writableRoots : List AbsolutePathBuf) (networkAccess excludeTmpdirEnvVar excludeSlashTmp : Bool)
deriving DecidableEq

def SandboxPolicy.getWritableRootsWithCwd (policy : SandboxPolicy) (host : Host) (cwd : Path) : List WritableRoot :=
  match policy with
  | .dangerFullAccess | .externalSandbox _ | .readOnly _ => []
  | .workspaceWrite writableRoots _ excludeTmpdirEnvVar excludeSlashTmp =>
    let cwdRoot := AbsolutePathBuf.fromAbsolutePath host.process cwd
    let slashTmpRoots := if excludeSlashTmp then [] else (resolveFileSystemSpecialPath host .slashTmp none).toList
    let tmpdirRoots := if excludeTmpdirEnvVar then [] else (resolveFileSystemSpecialPath host .tmpdir none).toList
    (writableRoots ++ cwdRoot.toList ++ slashTmpRoots ++ tmpdirRoots).map fun writableRoot =>
      { root := writableRoot
        readOnlySubpaths :=
          defaultReadOnlySubpathsForWritableRoot host writableRoot (cwdRoot.any fun cwdRoot => cwdRoot = writableRoot)
        protectedMetadataNames := [] }

/-! ## From a legacy policy -/

def appendDefaultReadOnlyEntryIfNoExplicitRule (entries : List FileSystemSandboxEntry) (path : FileSystemPath) :
    List FileSystemSandboxEntry :=
  if entries.any fun entry => fileSystemPathsShareTarget entry.path path then entries
  else entries ++ [.skipMissingPath path .read]

variable (host : Host)

/-- The default read-only paths of a root, each appended unless there is a rule for it. -/
def appendDefaultReadOnlyPaths (protectMissingDotCodex : Bool)
    (entries : List FileSystemSandboxEntry) (root : AbsolutePathBuf) : List FileSystemSandboxEntry :=
  (defaultReadOnlySubpathsForWritableRoot host root protectMissingDotCodex).foldl
    (fun entries path => appendDefaultReadOnlyEntryIfNoExplicitRule entries (.path path)) entries

def workspaceEntries (writableRoots : List AbsolutePathBuf) (excludeTmpdirEnvVar excludeSlashTmp : Bool) :
    List FileSystemSandboxEntry :=
  [⟨.special .root, .read, none⟩, ⟨.special (.projectRoots none), .write, none⟩] ++
    (if excludeSlashTmp then [] else [⟨.special .slashTmp, .write, none⟩]) ++
    (if excludeTmpdirEnvVar then [] else [⟨.special .tmpdir, .write, none⟩]) ++
    writableRoots.map fun path => ⟨.path path, .write, none⟩

namespace FileSystemSandboxPolicy

def workspaceWrite (writableRoots : List AbsolutePathBuf)
    (excludeTmpdirEnvVar excludeSlashTmp : Bool) : FileSystemSandboxPolicy :=
  let entries := protectedMetadataPathNames.foldl
    (fun entries subpath =>
      appendDefaultReadOnlyEntryIfNoExplicitRule entries (.special (.projectRoots (some subpath))))
    (workspaceEntries writableRoots excludeTmpdirEnvVar excludeSlashTmp)
  .restricted (writableRoots.foldl (appendDefaultReadOnlyPaths host false) entries)

def ofSandboxPolicy : SandboxPolicy → FileSystemSandboxPolicy
  | .dangerFullAccess => unrestricted
  | .externalSandbox _ => externalSandbox
  | .readOnly _ => .restricted [⟨.special .root, .read, none⟩]
  | .workspaceWrite writableRoots _ excludeTmpdirEnvVar excludeSlashTmp =>
    workspaceWrite host writableRoots excludeTmpdirEnvVar excludeSlashTmp

end FileSystemSandboxPolicy

def legacyRuntimeFileSystemPolicyForCwd (sandboxPolicy : SandboxPolicy) (cwd : Path) : FileSystemSandboxPolicy :=
  match sandboxPolicy with
  | .workspaceWrite writableRoots _ excludeTmpdirEnvVar excludeSlashTmp =>
    let entries := workspaceEntries writableRoots excludeTmpdirEnvVar excludeSlashTmp
    let entries := match AbsolutePathBuf.fromAbsolutePath host.process cwd with
      | some cwdRoot => appendDefaultReadOnlyPaths host true entries cwdRoot
      | none => entries
    .restricted (writableRoots.foldl (appendDefaultReadOnlyPaths host false) entries)
  | _ => .ofSandboxPolicy host sandboxPolicy

/-! ## To a legacy policy -/

/-- The variables of the loop of `to_legacy_sandbox_policy`. -/
structure LegacyScan where
  workspaceRootWritable : Bool := false
  writableRoots : List AbsolutePathBuf := []
  tmpdirWritable : Bool := false
  slashTmpWritable : Bool := false
  unbridgeableRootWrite : Bool := false

/-- The body of the loop of `to_legacy_sandbox_policy`. -/
def LegacyScan.scanEntry (cwdAbsolute : Option AbsolutePathBuf) (scan : LegacyScan)
    (entry : FileSystemSandboxEntry) : LegacyScan :=
  if !entry.access.canWrite then scan
  else
    match entry.path with
    | .globPattern _ => scan
    | .path path =>
      if cwdAbsolute = some path then { scan with workspaceRootWritable := true }
      else { scan with writableRoots := scan.writableRoots ++ [path] }
    | .special .root => { scan with unbridgeableRootWrite := true }
    | .special .minimal | .special (.unknown _ _) => scan
    | .special (.projectRoots none) => { scan with workspaceRootWritable := true }
    | .special (.projectRoots (some subpath)) =>
      match resolveFileSystemSpecialPath host (.projectRoots (some subpath)) cwdAbsolute with
      | some path => { scan with writableRoots := scan.writableRoots ++ [path] }
      | none => scan
    | .special .tmpdir => { scan with tmpdirWritable := true }
    | .special .slashTmp => { scan with slashTmpWritable := true }

def unsupportedWrites : Str :=
  ("permissions profile requests filesystem writes outside the workspace root, which is not supported until " ++
    "the runtime enforces FileSystemSandboxPolicy directly").toList

namespace FileSystemSandboxPolicy

def toLegacySandboxPolicy (policy : FileSystemSandboxPolicy) (host : Host)
    (networkPolicy : NetworkSandboxPolicy) (cwd : Path) : Except Str SandboxPolicy :=
  match policy.kind with
  | .externalSandbox => .ok (.externalSandbox (if networkPolicy.isEnabled then .enabled else .restricted))
  | .unrestricted =>
    .ok (if networkPolicy.isEnabled then .dangerFullAccess else .externalSandbox .restricted)
  | .restricted =>
    let cwdAbsolute := AbsolutePathBuf.fromAbsolutePath host.process cwd
    let scan := policy.entries.foldl (LegacyScan.scanEntry host cwdAbsolute) {}
    if policy.hasFullDiskWriteAccess then
      .ok (if networkPolicy.isEnabled then .dangerFullAccess else .externalSandbox .restricted)
    else if scan.workspaceRootWritable then
      .ok (.workspaceWrite (dedupAbsolutePaths host scan.writableRoots false) networkPolicy.isEnabled
        (!scan.tmpdirWritable) (!scan.slashTmpWritable))
    else if scan.unbridgeableRootWrite || !scan.writableRoots.isEmpty || scan.tmpdirWritable ||
        scan.slashTmpWritable then
      .error unsupportedWrites
    else .ok (.readOnly networkPolicy.isEnabled)

end FileSystemSandboxPolicy

def protectedMetadataNamesNeedDirectRuntimeEnforcement (policy : FileSystemSandboxPolicy)
    (legacyPolicy : SandboxPolicy) (cwd : Path) : Bool :=
  let legacyRoots := legacyPolicy.getWritableRootsWithCwd host cwd
  (policy.getWritableRootsWithCwd host cwd).any fun writableRoot =>
    match legacyRoots.find? fun candidate => candidate.root = writableRoot.root with
    | none => !writableRoot.protectedMetadataNames.isEmpty
    | some legacyRoot =>
      writableRoot.protectedMetadataNames.any fun metadataName =>
        let metadataPath := writableRoot.root.join host.process metadataName
        !legacyRoot.readOnlySubpaths.any fun subpath => subpath = metadataPath

def FileSystemSandboxPolicy.needsDirectRuntimeEnforcement (policy : FileSystemSandboxPolicy) (host : Host)
    (networkPolicy : NetworkSandboxPolicy) (cwd : Path) : Bool :=
  if policy.kind ≠ .restricted then false
  else
    match policy.toLegacySandboxPolicy host networkPolicy cwd with
    | .error _ => true
    | .ok legacyPolicy =>
      if protectedMetadataNamesNeedDirectRuntimeEnforcement host policy legacyPolicy cwd then true
      else
        policy.semanticSignature host cwd ≠
          (legacyRuntimeFileSystemPolicyForCwd host legacyPolicy cwd).semanticSignature host cwd

end Dcode.Permissions
