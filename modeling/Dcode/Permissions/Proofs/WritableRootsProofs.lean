import Dcode.Permissions.WritableRoots
import Dcode.Permissions.Proofs.AccessProofs

/-!
# Writable roots and the policy they come from

Without symlinks a writable root is the path of an entry that governs itself, and its read-only subpaths and
protected names are read off the policy. What a root lets through can be written, except inside the metadata
directories of a root further down.
-/

namespace Dcode.Permissions

open List AbsolutePathBuf FileSystemSandboxPolicy Bool

/-! ## Paths without symlinks -/

theorem mem_ancestors {path ancestor : AbsolutePathBuf} (h : ancestor ∈ path.ancestors) :
    ancestor.components <+: path.components := by
  obtain ⟨k, -, rfl⟩ := mem_map.mp h
  exact take_prefix k path.components

section

variable {host : Host} (hs : host.SymlinkFree)

include hs

theorem canonicalizePreservingSymlinks_eq (path : AbsolutePathBuf) :
    host.canonicalizePreservingSymlinks path = path := by
  unfold Host.canonicalizePreservingSymlinks
  split
  next canonical h =>
    rw [hs path canonical h]
    split <;> rfl
  next => rfl

theorem normalizeEffectiveAbsolutePath_eq (path : AbsolutePathBuf) :
    normalizeEffectiveAbsolutePath host path = path := by
  unfold normalizeEffectiveAbsolutePath
  split
  next ancestor h =>
    obtain ⟨rest, hrest⟩ := mem_ancestors (mem_of_find?_eq_some h)
    rw [canonicalizePreservingSymlinks_eq hs]
    apply eq_of_components
    change ancestor.components ++ path.components.drop ancestor.components.length = path.components
    rw [← hrest, drop_left]
  next => rfl

theorem mem_dedupAbsolutePaths {paths : List AbsolutePathBuf} {normalize : Bool} {path : AbsolutePathBuf} :
    path ∈ dedupAbsolutePaths host paths normalize ↔ path ∈ paths := by
  rw [dedupAbsolutePaths, mem_eraseDups]
  split
  next => simp [normalizeEffectiveAbsolutePath_eq hs]
  next => rfl

/-- An entry carves out a root at its own path if that lies below the root. -/
theorem carveoutPath_eq_some {root path carveout : AbsolutePathBuf} {raw : List AbsolutePathBuf}
    (hraw : ∀ x ∈ raw, x = root) : carveoutPath host root raw path = some carveout ↔
      carveout = path ∧ path.startsWith root ∧ path ≠ root := by
  have hfind : ¬ path.startsWith root → raw.findSome? (mirroredPath host root path) = none := by
    intro hpath
    refine findSome?_eq_none_iff.mpr fun x hx => ?_
    rw [hraw x hx, mirroredPath]
    cases h : path.stripPrefix root with
    | none => rfl
    | some rest => exact absurd ⟨rest, (stripPrefix_eq_some.mp h).symm⟩ hpath
  simp only [carveoutPath, normalizeEffectiveAbsolutePath_eq hs]
  by_cases heq : path = root
  · simp [heq]
  · by_cases hpath : path.startsWith root
    · by_cases hroot : root = .root
      · subst hroot
        simp [heq, hpath, eq_comm]
      · simp [hroot, heq, hpath, eq_comm]
    · simp [hpath, hfind hpath]

end

/-! ## The parts of a writable root -/

section

variable {policy : FileSystemSandboxPolicy} {host : Host} {cwd : Path} {root : AbsolutePathBuf}

theorem restricted_of_not_full (h : policy.hasFullDiskWriteAccess = false) : policy.kind = .restricted := by
  unfold hasFullDiskWriteAccess at h
  split at h
  next => cases h
  next => cases h
  next hk => exact hk

def WriteRoot (entries : List ResolvedFileSystemEntry) (root : AbsolutePathBuf) : Prop :=
  Governs entries root ⟨root, .write⟩

theorem mem_writableEntries (hfull : policy.hasFullDiskWriteAccess = false) :
    root ∈ policy.writableEntries host cwd ↔ WriteRoot (policy.resolvedEntriesWithCwd host cwd) root := by
  have hk := restricted_of_not_full hfull
  rw [writableEntries, mem_map]
  constructor
  · rintro ⟨e, he, rfl⟩
    obtain ⟨hmem, hwrite⟩ := mem_filter.mp he
    obtain ⟨hew, hcan⟩ := and_eq_true_iff.mp hwrite
    obtain ⟨g, hg, hgw⟩ := exists_governs_of_canWrite hk (resolveCandidatePath_asPath host e.path cwd) hcan
    -- the governing entry has the path of `e`, since `e` covers it
    have hlen := hg.longest e hmem (prefix_refl _)
    have hpath : g.path = e.path := eq_of_components (hg.covers.eq_of_length_le hlen)
    have heq : g = ⟨e.path, .write⟩ := ResolvedFileSystemEntry.ext hpath hgw
    rwa [heq] at hg
  · intro h
    refine ⟨_, mem_filter.mpr ⟨h.mem, ?_⟩, rfl⟩
    have hcan := (@canWrite_entry_iff policy host cwd ⟨root, .write⟩ hk hfull h).mpr rfl
    exact hcan

variable (hs : host.SymlinkFree)

include hs

theorem mem_getWritableRootsWithCwd {r : WritableRoot} : r ∈ policy.getWritableRootsWithCwd host cwd ↔
    policy.hasFullDiskWriteAccess = false ∧ WriteRoot (policy.resolvedEntriesWithCwd host cwd) r.root ∧
      r = policy.writableRootFor host cwd r.root := by
  unfold getWritableRootsWithCwd
  cases hfull : policy.hasFullDiskWriteAccess with
  | true => simp
  | false =>
    rw [if_neg (by simp), mem_map]
    constructor
    · rintro ⟨root, hroot, rfl⟩
      rw [mem_dedupAbsolutePaths hs, mem_writableEntries hfull] at hroot
      exact ⟨rfl, hroot, rfl⟩
    · rintro ⟨-, hroot, heq⟩
      refine ⟨r.root, ?_, heq.symm⟩
      rwa [mem_dedupAbsolutePaths hs, mem_writableEntries hfull]

theorem mem_protectedMetadataNames {m : Str} : m ∈ (policy.writableRootFor host cwd root).protectedMetadataNames ↔
      m ∈ protectedMetadataPathNames ∧
        policy.canWritePathWithCwd host (root.join host.process m).asPath cwd = false := by
  simp only [writableRootFor, protectedMetadataNamesForWritableRoot, normalizeEffectiveAbsolutePath_eq hs, mem_filter]
  refine and_congr_right fun _ => ?_
  simp only [map_cons, all_cons, all_map, and_eq_true, not_eq_true']
  refine and_iff_left_of_imp fun h => all_eq_true.mpr fun x hx => ?_
  have hx : x = root := by simpa using (mem_filter.mp hx).2
  simpa [hx] using h

/-- The default read-only paths of a root that no entry of the policy names. -/
def DefaultReadOnly (policy : FileSystemSandboxPolicy) (host : Host) (cwd : Path) (root path : AbsolutePathBuf) :
    Prop :=
  path ∈ defaultReadOnlySubpathsForWritableRoot host root
      ((AbsolutePathBuf.fromAbsolutePath host.process cwd).any fun cwd => cwd = root) ∧
    ∀ e ∈ policy.resolvedEntriesWithCwd host cwd, e.path ≠ path

theorem mem_readOnlySubpaths {path : AbsolutePathBuf} : path ∈ (policy.writableRootFor host cwd root).readOnlySubpaths ↔
      DefaultReadOnly policy host cwd root path ∨
        (∃ e ∈ policy.resolvedEntriesWithCwd host cwd, e.path = path ∧ e.access ≠ .write) ∧
          policy.canWritePathWithCwd host path.asPath cwd = false ∧ path.startsWith root ∧ path ≠ root := by
  simp only [writableRootFor, mem_dedupAbsolutePaths hs,
    normalizeEffectiveAbsolutePath_eq hs, mem_append, DefaultReadOnly]
  refine or_congr ?_ ?_
  · simp [hasExplicitResolvedPathEntry]
  · rw [mem_filterMap]
    constructor
    · rintro ⟨e, he, hcarve⟩
      obtain ⟨rfl, hbelow, hne⟩ := (carveoutPath_eq_some hs (by simp)).mp hcarve
      obtain ⟨hmem, hno⟩ := mem_filter.mp he
      obtain ⟨hew, hcan⟩ := and_eq_true_iff.mp hno
      exact ⟨⟨e, hmem, rfl, by simpa using hew⟩, by simpa using hcan, hbelow, hne⟩
    · rintro ⟨⟨e, hmem, rfl, hew⟩, hcan, hbelow, hne⟩
      refine ⟨e, mem_filter.mpr ⟨hmem, ?_⟩, (carveoutPath_eq_some hs (by simp)).mpr ⟨rfl, hbelow, hne⟩⟩
      simp [hew, hcan]

end

theorem pathContainsProtectedMetadataName_asPath {r : WritableRoot} {path : AbsolutePathBuf} :
    r.pathContainsProtectedMetadataName path.asPath ↔
      ∃ m ∈ r.protectedMetadataNames, r.root.components ++ [m] <+: path.components := by
  unfold WritableRoot.pathContainsProtectedMetadataName
  rw [Path.stripPrefix_asPath]
  cases h : path.stripPrefix r.root with
  | none =>
    refine ⟨nofun, ?_⟩
    rintro ⟨m, -, rest, hrest⟩
    rw [append_assoc] at hrest
    have hstrip := stripPrefix_eq_some.mpr hrest.symm
    rw [h] at hstrip
    cases hstrip
  | some rest =>
    rw [stripPrefix_eq_some.mp h]
    cases rest with
    | nil =>
      refine ⟨nofun, ?_⟩
      rintro ⟨m, -, hm⟩
      have hlen := hm.length_le
      simp at hlen
    | cons c rest => simp

theorem isPathWritable_asPath {r : WritableRoot} {path : AbsolutePathBuf} :
    r.isPathWritable path.asPath ↔ path.startsWith r.root ∧
      (∀ subpath ∈ r.readOnlySubpaths, ¬ path.startsWith subpath) ∧
      ∀ m ∈ r.protectedMetadataNames, ¬ r.root.components ++ [m] <+: path.components := by
  have hnames := @pathContainsProtectedMetadataName_asPath r path
  unfold WritableRoot.isPathWritable
  by_cases hroot : path.startsWith r.root
  · rw [if_neg (by simp [Path.startsWith_asPath.mpr hroot])]
    by_cases hsub : ∃ subpath ∈ r.readOnlySubpaths, path.startsWith subpath
    · obtain ⟨subpath, hmem, hsub⟩ := hsub
      rw [if_pos (any_eq_true.mpr ⟨subpath, hmem, Path.startsWith_asPath.mpr hsub⟩)]
      exact ⟨nofun, fun h => absurd hsub (h.2.1 subpath hmem)⟩
    · push Not at hsub
      rw [if_neg (by simpa [Path.startsWith_asPath] using hsub), not_eq_true', ← not_eq_true, hnames]
      push Not
      exact ⟨fun h => ⟨hroot, hsub, h⟩, fun h => h.2.2⟩
  · have hstart : Path.startsWith path.asPath r.root = false :=
      eq_false_of_not_eq_true fun h => hroot (Path.startsWith_asPath.mp h)
    rw [if_pos (by simp [hstart])]
    exact ⟨nofun, fun h => absurd h.1 hroot⟩

theorem mem_defaultReadOnlySubpaths {host : Host} (hs : host.SymlinkFree) {root path : AbsolutePathBuf}
    {protectMissingDotCodex : Bool}
    (h : path ∈ defaultReadOnlySubpathsForWritableRoot host root protectMissingDotCodex) :
    gitdirOf host root = some path ∨ ∃ m ∈ protectedMetadataPathNames, path = root.join host.process m := by
  rw [defaultReadOnlySubpathsForWritableRoot, mem_dedupAbsolutePaths hs, mem_append, mem_append] at h
  rcases h with (h | h) | h
  · split at h
    · rcases mem_append.mp h with h | h
      · exact .inl (Option.mem_toList.mp h)
      · exact .inr ⟨_, by decide, mem_singleton.mp h⟩
    · cases h
  · split at h
    · exact .inr ⟨_, by decide, mem_singleton.mp h⟩
    · cases h
  · split at h
    · exact .inr ⟨_, by decide, mem_singleton.mp h⟩
    · cases h

/-! ## What a root lets through -/

section

variable {policy : FileSystemSandboxPolicy} {host : Host} {path cwd : Path} {root target : AbsolutePathBuf}
  {entry : ResolvedFileSystemEntry} (hs : host.SymlinkFree) (hfull : policy.hasFullDiskWriteAccess = false)

include hs hfull

theorem mem_readOnlySubpaths_of_governs (hroot : WriteRoot (policy.resolvedEntriesWithCwd host cwd) root)
    (hbelow : target.startsWith root) (hg : Governs (policy.resolvedEntriesWithCwd host cwd) target entry)
    (hw : entry.access ≠ .write) : entry.path ∈ (policy.writableRootFor host cwd root).readOnlySubpaths := by
  have hk := restricted_of_not_full hfull
  have hcan : policy.canWritePathWithCwd host entry.path.asPath cwd = false := by
    apply eq_false_of_not_eq_true
    intro h
    exact hw ((canWrite_entry_iff hk hfull hg.self).mp h)
  have hne : entry.path ≠ root := by
    rintro rfl
    exact hw (hg.self.value_eq hroot)
  exact (mem_readOnlySubpaths hs).mpr (.inr ⟨⟨entry, hg.mem, rfl, hw⟩, hcan, hg.key_prefix hroot.mem hbelow, hne⟩)

/-- Under a governing entry with write access, the protected names of its root decide about writing. -/
theorem canWrite_iff_protectedMetadataNames (ht : resolveCandidatePath host path cwd = some target)
    (hg : Governs (policy.resolvedEntriesWithCwd host cwd) target entry) (hw : entry.access = .write) :
    policy.canWritePathWithCwd host path cwd ↔
      ∀ m ∈ (policy.writableRootFor host cwd entry.path).protectedMetadataNames,
        ¬ entry.path.components ++ [m] <+: target.components := by
  have hk := restricted_of_not_full hfull
  constructor
  · intro h m hm hcov
    obtain ⟨hmem, hno⟩ := (mem_protectedMetadataNames hs).mp hm
    rw [(canWrite_join_iff hk hfull ht hg hmem hcov).mpr h] at hno
    cases hno
  · intro h
    refine (canWrite_iff_of_governs hk hfull ht hg).mpr ⟨hw, ?_⟩
    intro m hchild
    obtain ⟨e, -, -, hec⟩ := exists_of_metadataChildOfWritableRoot hchild
    obtain ⟨hm, hjoin, hcov⟩ := metadataChild_eq_some.mp hec
    have hpath : entry.path.components ++ [m] = e.path.components ++ [m] := by
      rw [← join_protected_components host entry.path hm, hjoin, join_protected_components host e.path hm]
    rw [← hpath] at hcov
    refine h m ((mem_protectedMetadataNames hs).mpr ⟨hm, ?_⟩) hcov
    apply eq_false_of_not_eq_true
    intro hcan
    have hcan := (canWrite_join_iff hk hfull ht hg hm hcov).mp hcan
    exact ((canWrite_iff_of_governs hk hfull ht hg).mp hcan).2 m hchild

end

/-- The path lies in a metadata directory of an entry strictly below `root`, and no entry with write access at
or below that directory covers it. -/
def NestedMetadata (host : Host) (policy : FileSystemSandboxPolicy) (cwd : Path) (root path : AbsolutePathBuf) : Prop :=
  ∃ w m, metadataChildOfWritableRoot host policy path cwd = some (w, m) ∧
    root.components.length + 1 < w.components.length ∧
    hasExplicitWriteEntryForMetadataPath host policy w path cwd = false

section

variable {policy : FileSystemSandboxPolicy} {host : Host} {cwd : Path} {root path : AbsolutePathBuf}
  {entry : ResolvedFileSystemEntry}

theorem not_nestedMetadata_of_canWrite (hfull : policy.hasFullDiskWriteAccess = false)
    (hg : Governs (policy.resolvedEntriesWithCwd host cwd) path entry) (hw : entry.access = .write)
    (hcan : policy.canWritePathWithCwd host path.asPath cwd) :
    ¬ NestedMetadata host policy cwd root path := by
  rintro ⟨w, m, hchild, -, hexplicit⟩
  have hk := restricted_of_not_full hfull
  have ht := resolveCandidatePath_asPath host path cwd
  have hdenied := (isMetadataWriteDenied_iff hk ht).mpr ⟨w, m, hchild, hexplicit⟩
  obtain ⟨m, hm⟩ := (isMetadataWriteDenied_iff_governs hk ht hg hw).mp hdenied
  exact ((canWrite_iff_of_governs hk hfull ht hg).mp hcan).2 m hm

/-- Under an entry with write access strictly below `root`, only its own metadata directories cannot be
written. -/
theorem nestedMetadata_of_not_canWrite (hfull : policy.hasFullDiskWriteAccess = false)
    (hg : Governs (policy.resolvedEntriesWithCwd host cwd) path entry) (hw : entry.access = .write)
    (hlt : root.components.length < entry.path.components.length)
    (hcan : ¬ policy.canWritePathWithCwd host path.asPath cwd) :
    NestedMetadata host policy cwd root path := by
  have hk := restricted_of_not_full hfull
  have ht := resolveCandidatePath_asPath host path cwd
  have hchild : ∃ m, metadataChildOfWritableRoot host policy path cwd = some (entry.path.join host.process m, m) := by
    by_contra hnone
    push Not at hnone
    exact hcan ((canWrite_iff_of_governs hk hfull ht hg).mpr ⟨hw, hnone⟩)
  have hdenied := (isMetadataWriteDenied_iff_governs hk ht hg hw).mpr hchild
  obtain ⟨w, m, hwm, hexplicit⟩ := (isMetadataWriteDenied_iff hk ht).mp hdenied
  obtain ⟨n, hn⟩ := hchild
  obtain ⟨rfl, rfl⟩ := Prod.mk.inj (Option.some.inj (hwm.symm.trans hn))
  obtain ⟨f, -, -, hf⟩ := exists_of_metadataChildOfWritableRoot hwm
  have hprot := (metadataChild_eq_some.mp hf).1
  refine ⟨_, _, hwm, ?_, hexplicit⟩
  rw [join_protected_components host entry.path hprot, length_append, length_singleton]
  omega

end

/-- What a writable root lets through can be written under the policy, unless it lies in the metadata
directory of a root nested in it. -/
theorem isPathWritable_canWrite_iff {host : Host} (hs : host.SymlinkFree) (policy : FileSystemSandboxPolicy)
    (cwd : Path) {r : WritableRoot} (hr : r ∈ policy.getWritableRootsWithCwd host cwd) {path : AbsolutePathBuf}
    (hp : r.isPathWritable path.asPath = true) :
    policy.canWritePathWithCwd host path.asPath cwd = true ↔ ¬ NestedMetadata host policy cwd r.root path := by
  obtain ⟨hfull, hroot, hr⟩ := (mem_getWritableRootsWithCwd hs).mp hr
  obtain ⟨hbelow, hsub, hnames⟩ := isPathWritable_asPath.mp hp
  have ht := resolveCandidatePath_asPath host path cwd
  obtain ⟨e, hg⟩ := exists_governs hroot.mem hbelow
  have hw : e.access = .write := by
    by_contra hw
    have hmem := mem_readOnlySubpaths_of_governs hs hfull hroot hbelow hg hw
    rw [← hr] at hmem
    exact hsub e.path hmem hg.covers
  refine ⟨not_nestedMetadata_of_canWrite hfull hg hw, fun hnested => ?_⟩
  by_contra hcan
  -- the governing entry lies strictly below the root, whose own names let the path through
  have hne : e.path ≠ r.root := by
    intro heq
    refine hcan ((canWrite_iff_protectedMetadataNames hs hfull ht hg hw).mpr ?_)
    rw [heq, ← hr]
    exact hnames
  have hup : r.root.components <+: e.path.components := hg.key_prefix hroot.mem hbelow
  have hlt : r.root.components.length < e.path.components.length := by
    refine Nat.lt_of_le_of_ne hup.length_le fun hlen => hne ?_
    exact (eq_of_components (hup.eq_of_length hlen)).symm
  exact hnested (nestedMetadata_of_not_canWrite hfull hg hw hlt hcan)

/-- A host with the given directories and files, none of them a symlink, and no home directory. -/
def Host.ofNodes (nodes : List (AbsolutePathBuf × Node)) : Host where
  process := ⟨some .root, none⟩
  tmpdir := none
  node := fun path => List.lookup path nodes
  canonicalize := fun path => if (List.lookup path nodes).isSome then some path else none

theorem Host.ofNodes_symlinkFree (nodes : List (AbsolutePathBuf × Node)) : (Host.ofNodes nodes).SymlinkFree := by
  intro path target h
  simp only [Host.ofNodes] at h
  split at h
  · exact (Option.some.inj h).symm
  · cases h

def workDir : AbsolutePathBuf := ⟨["w".toList], by decide⟩
def workFile : AbsolutePathBuf := ⟨["w".toList, "a".toList], by decide⟩
def nestedDir : AbsolutePathBuf := ⟨["w".toList, "sub".toList], by decide⟩
def nestedGitConfig : AbsolutePathBuf := ⟨["w".toList, "sub".toList, ".git".toList, "config".toList], by decide⟩

def nestedHost : Host := .ofNodes [(.root, .dir), (workDir, .dir), (nestedDir, .dir)]

def nestedRoots : FileSystemSandboxPolicy :=
  .restricted [⟨.special .root, .read, none⟩, ⟨.path workDir, .write, none⟩, ⟨.path nestedDir, .write, none⟩]

theorem isPathWritable_canWrite_workFile :
    nestedRoots.canWritePathWithCwd nestedHost workFile.asPath workDir.asPath = true ↔
      ¬ NestedMetadata nestedHost nestedRoots workDir.asPath workDir workFile := by
  have hr : nestedRoots.writableRootFor nestedHost workDir.asPath workDir ∈
      nestedRoots.getWritableRootsWithCwd nestedHost workDir.asPath := by decide
  have hp : (nestedRoots.writableRootFor nestedHost workDir.asPath workDir).isPathWritable workFile.asPath =
      true := by decide
  exact isPathWritable_canWrite_iff (Host.ofNodes_symlinkFree _) nestedRoots workDir.asPath hr hp

/-- The outer root lets the git directory of the inner one through. -/
theorem isPathWritable_nestedGitConfig : (∃ r ∈ nestedRoots.getWritableRootsWithCwd nestedHost workDir.asPath,
      r.isPathWritable nestedGitConfig.asPath = true) ∧
    nestedRoots.hasFullDiskWriteAccess = false ∧
    nestedRoots.canWritePathWithCwd nestedHost nestedGitConfig.asPath workDir.asPath = false := by
  decide

/-! ## What is let through by some root -/

/-- Where no entry lies in a metadata directory, what can be written is let through by the root that governs it. -/
theorem exists_isPathWritable_of_canWrite {host : Host} (hs : host.SymlinkFree)
    (hgit : ∀ path, isGitPointerFile host path = false) {policy : FileSystemSandboxPolicy}
    (hfull : policy.hasFullDiskWriteAccess = false) {cwd : Path}
    (hplain : ∀ e ∈ policy.resolvedEntriesWithCwd host cwd, ∀ c ∈ e.path.components, c ∉ protectedMetadataPathNames)
    {path : Path} {target : AbsolutePathBuf} (ht : resolveCandidatePath host path cwd = some target)
    (hcan : policy.canWritePathWithCwd host path cwd = true) :
    ∃ r ∈ policy.getWritableRootsWithCwd host cwd, r.isPathWritable target.asPath = true := by
  have hk := restricted_of_not_full hfull
  obtain ⟨e, hg, hw⟩ := exists_governs_of_canWrite hk ht hcan
  have hroot : WriteRoot (policy.resolvedEntriesWithCwd host cwd) e.path := by
    have heq : e = ⟨e.path, .write⟩ := ResolvedFileSystemEntry.ext rfl hw
    rw [WriteRoot, ← heq]
    exact hg.self
  have hnested : ¬ NestedMetadataRoots host cwd policy target := by
    rintro ⟨g, f, hg, -, -, hf, -, hne, hchild⟩
    obtain ⟨⟨w, n⟩, hsome⟩ := Option.ne_none_iff_exists'.mp hchild
    obtain ⟨hn, -, hcov⟩ := metadataChild_eq_some.mp hsome
    have hup := hg.key_prefix hf ((prefix_append _ _).trans hcov)
    have hlen : f.path.components.length < g.path.components.length :=
      Nat.lt_of_le_of_ne hup.length_le fun heq => hne (eq_of_components (hup.eq_of_length heq))
    have hbelow : f.path.components ++ [n] <+: g.path.components :=
      prefix_of_prefix_length_le hcov hg.covers (by simpa using hlen)
    exact hplain g hg.mem n (hbelow.subset (by simp)) hn
  have hout : ∀ m ∈ protectedMetadataPathNames, ¬ e.path.components ++ [m] <+: target.components := by
    intro m hm hcov
    have hsome : metadataChild host target e = some (e.path.join host.process m, m) :=
      metadataChild_eq_some.mpr ⟨hm, rfl, hcov⟩
    obtain ⟨n, hn⟩ := (metadataChildOfWritableRoot_iff hg hw hnested).mpr (by rw [hsome]; exact nofun)
    exact ((canWrite_iff_of_governs hk hfull ht hg).mp hcan).2 n hn
  refine ⟨policy.writableRootFor host cwd e.path, (mem_getWritableRootsWithCwd hs).mpr ⟨hfull, hroot, rfl⟩, ?_⟩
  refine isPathWritable_asPath.mpr ⟨hg.covers, fun subpath hsub hbelow => ?_, fun m hm => ?_⟩
  · rcases (mem_readOnlySubpaths hs).mp hsub with ⟨hdefault, -⟩ | ⟨⟨f, hf, rfl, -⟩, -, hup, hne⟩
    · rcases mem_defaultReadOnlySubpaths hs hdefault with hgitdir | ⟨m, hm, rfl⟩
      · simp [gitdirOf, hgit] at hgitdir
      · rw [startsWith, join_protected_components host e.path hm] at hbelow
        exact hout m hm hbelow
    · exact hne (startsWith_antisymm hup (hg.key_prefix hf hbelow))
  · exact hout m ((mem_protectedMetadataNames hs).mp hm).1

theorem exists_isPathWritable_workFile :
    ∃ r ∈ nestedRoots.getWritableRootsWithCwd (.ofNodes []) workDir.asPath, r.isPathWritable workFile.asPath = true :=
  exists_isPathWritable_of_canWrite (Host.ofNodes_symlinkFree []) (fun _ => rfl) (by decide) (by decide)
    (resolveCandidatePath_asPath _ workFile workDir.asPath) (by decide)

end Dcode.Permissions
