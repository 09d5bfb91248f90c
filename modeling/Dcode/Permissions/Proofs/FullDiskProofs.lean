import Dcode.Permissions.Proofs.AccessProofs

/-!
# Full-disk access

The full-disk flags are read off the entries as they are written, the access of a path off the resolved ones.
They agree except where a `/tmp` entry is written but does not resolve.
-/

namespace Dcode.Permissions

open AbsolutePathBuf FileSystemSandboxPolicy Bool

section

variable {policy : FileSystemSandboxPolicy} {host : Host} {path cwd : Path} {c target : AbsolutePathBuf}

/-! ## Resolved entries -/

variable {entry : ResolvedFileSystemEntry}

theorem mem_resolvedEntries :
    entry ∈ policy.resolvedEntriesWithCwd host cwd ↔ ∃ e ∈ policy.entries, e.access = entry.access ∧
      resolveEntryPath host e.path (fromAbsolutePath host.process cwd) = some entry.path := by
  rw [resolvedEntriesWithCwd, List.mem_filterMap]
  refine exists_congr fun e => and_congr_right fun _ => ?_
  rw [Option.map_eq_some_iff]
  constructor
  · rintro ⟨p, hp, rfl⟩
    exact ⟨rfl, hp⟩
  · rintro ⟨hacc, hp⟩
    exact ⟨entry.path, hp, ResolvedFileSystemEntry.ext rfl hacc⟩

theorem startsWith_root (path : AbsolutePathBuf) : path.startsWith .root := List.nil_prefix

theorem exists_root_entry {predicate : FileSystemAccessMode → Bool} (h : policy.hasRootAccess predicate)
    (hcwd : fromAbsolutePath host.process cwd = some c) :
    ∃ access, predicate access ∧ ⟨.root, access⟩ ∈ policy.resolvedEntriesWithCwd host cwd := by
  obtain ⟨e, he, hroot⟩ := List.any_eq_true.mp (and_eq_true_iff.mp h).2
  obtain ⟨hpath, hacc⟩ := and_eq_true_iff.mp hroot
  refine ⟨e.access, hacc, mem_resolvedEntries.mpr ⟨e, he, rfl, ?_⟩⟩
  rw [of_decide_eq_true hpath, hcwd]
  rfl

/-! ## Reading -/

theorem canRead_of_hasFullDiskReadAccess (hcwd : fromAbsolutePath host.process cwd = some c)
    (ht : resolveCandidatePath host path cwd = some target) (hfull : policy.hasFullDiskReadAccess) :
    policy.canReadPathWithCwd host path cwd := by
  unfold hasFullDiskReadAccess at hfull
  split at hfull
  next hk => simp [canReadPathWithCwd, resolveAccessWithCwd, hk]
  next hk => simp [canReadPathWithCwd, resolveAccessWithCwd, hk]
  next hk =>
    obtain ⟨hroot, hdeny⟩ := and_eq_true_iff.mp hfull
    obtain ⟨access, -, hmem⟩ := exists_root_entry hroot hcwd
    obtain ⟨e, hg⟩ := exists_governs hmem (startsWith_root target)
    refine (canRead_iff_governs hk ht).mpr ⟨e, hg, ?_⟩
    intro hacc
    obtain ⟨s, hs, hsacc, -⟩ := mem_resolvedEntries.mp hg.mem
    have hany : policy.hasDeniedReadRestrictions := by
      simp only [hasDeniedReadRestrictions, hk]
      exact List.any_eq_true.mpr ⟨s, hs, by simp [hsacc, hacc]⟩
    rw [hany] at hdeny
    cases hdeny

/-! ## Writing -/

/-- Entries with a shared target resolve to the same path, except that `/tmp` does not resolve where it is no
directory. -/
theorem resolveEntryPath_of_shareTarget {left right : FileSystemPath} {resolved : AbsolutePathBuf}
    (h : fileSystemPathsShareTarget left right)
    (hright : resolveEntryPath host right (some c) = some resolved) :
    resolveEntryPath host left (some c) = some resolved ∨
      left = .special .slashTmp ∧ right = .path slashTmp ∧ host.isDir slashTmp = false := by
  cases left with
  | path p =>
    cases right with
    | path q => exact .inl (by rwa [of_decide_eq_true h])
    | globPattern _ => cases h
    | special value =>
      cases value with
      | root => exact .inl (by rw [of_decide_eq_true h]; exact hright)
      | slashTmp =>
        rw [of_decide_eq_true h]
        refine .inl ?_
        simp only [resolveEntryPath, resolveFileSystemPath, resolveFileSystemSpecialPath] at hright ⊢
        split at hright
        · exact hright
        · cases hright
      | _ => cases h
  | globPattern _ =>
    cases right with
    | globPattern _ => cases hright
    | _ => cases h
  | special value =>
    cases right with
    | path q =>
      cases value with
      | root =>
        rw [of_decide_eq_true h] at hright
        exact .inl hright
      | slashTmp =>
        rw [of_decide_eq_true h] at hright ⊢
        cases hdir : host.isDir slashTmp with
        | true =>
          refine .inl ?_
          simp only [resolveEntryPath, resolveFileSystemPath, resolveFileSystemSpecialPath, hdir]
          exact hright
        | false => exact .inr ⟨rfl, rfl, rfl⟩
      | _ => cases h
    | globPattern _ => cases h
    | special other =>
      have heq : value = other := by
        cases value <;> cases other <;> simp_all [fileSystemPathsShareTarget, specialPathsShareTarget]
      exact .inl (heq ▸ hright)

variable (policy host cwd) in
/-- A read-only entry for `/tmp` decides about the path, since the write entry for it does not resolve. -/
def TmpShadowed (path : AbsolutePathBuf) : Prop :=
  policy.kind = .restricted ∧ host.isDir slashTmp = false ∧
    (∃ e ∈ policy.entries, e.path = .path slashTmp ∧ e.access = .read) ∧ path.startsWith slashTmp ∧
    ∀ e ∈ policy.resolvedEntriesWithCwd host cwd, e.access = .write → path.startsWith e.path →
      ¬ e.path.startsWith slashTmp

theorem not_canWrite_of_tmpShadowed (ht : resolveCandidatePath host path cwd = some target)
    (h : TmpShadowed policy host cwd target) : policy.canWritePathWithCwd host path cwd = false := by
  obtain ⟨hk, -, ⟨s, hs, hpath, hread⟩, hbelow, hno⟩ := h
  have hmem : ⟨slashTmp, .read⟩ ∈ policy.resolvedEntriesWithCwd host cwd := by
    refine mem_resolvedEntries.mpr ⟨s, hs, hread, ?_⟩
    rw [hpath]
    rfl
  apply eq_false_of_not_eq_true
  intro hcan
  obtain ⟨e, hg, hw⟩ := exists_governs_of_canWrite hk ht hcan
  exact hno e hg.mem hw hg.covers (hg.key_prefix hmem hbelow)

/-- An entry without write access that governs a path is not overridden by an entry for its path. -/
theorem not_write_of_governs (hg : Governs (policy.resolvedEntriesWithCwd host cwd) target entry)
    (hread : entry.access = .read) :
    ⟨entry.path, .write⟩ ∉ policy.resolvedEntriesWithCwd host cwd := by
  intro hmem
  have hle : FileSystemAccessMode.write ≤ entry.access := hg.greatest _ hmem rfl
  rw [hread] at hle
  exact absurd hle (by decide)

theorem hasSameTargetWriteOverride_iff {policy : FileSystemSandboxPolicy} {s : FileSystemSandboxEntry} :
    policy.hasSameTargetWriteOverride s ↔
      s.access = .read ∧ ∃ o ∈ policy.entries, o.access = .write ∧ fileSystemPathsShareTarget o.path s.path := by
  have hlt : ∀ access : FileSystemAccessMode, access < .write ↔ access = .read := by
    intro access
    cases access <;> decide
  simp only [hasSameTargetWriteOverride, List.any_eq_true, Bool.and_eq_true, decide_eq_true_eq,
    FileSystemAccessMode.canWrite_iff, ← hlt]
  constructor
  · rintro ⟨o, ho, ⟨hw, hread⟩, hshare⟩
    exact ⟨hw ▸ hread, o, ho, hw, hshare⟩
  · rintro ⟨hread, o, ho, hw, hshare⟩
    exact ⟨o, ho, ⟨hw, hw ▸ hread⟩, hshare⟩

/-- An entry that does not narrow the write access of the root is for the root itself, or an entry with write
access shares its target. -/
theorem override_of_not_narrowsWrite {s : FileSystemSandboxEntry} {resolved : AbsolutePathBuf}
    (hnarrow : policy.narrowsWrite s = false) (hw : s.access ≠ .write)
    (hres : resolveEntryPath host s.path (some c) = some resolved) :
    s.access = .read ∧ (s.path = .special .root ∨
      ∃ o ∈ policy.entries, o.access = .write ∧ fileSystemPathsShareTarget o.path s.path) := by
  have hoverride : (!policy.hasSameTargetWriteOverride s) = false →
      s.access = .read ∧ ∃ o ∈ policy.entries, o.access = .write ∧ fileSystemPathsShareTarget o.path s.path := by
    intro h
    exact hasSameTargetWriteOverride_iff.mp (by simpa using h)
  unfold narrowsWrite at hnarrow
  rw [if_neg (by simpa using hw)] at hnarrow
  split at hnarrow
  next => exact ⟨(hoverride hnarrow).1, .inr (hoverride hnarrow).2⟩
  next => cases hnarrow
  next hpath =>
    refine ⟨?_, .inl hpath⟩
    have hdeny : s.access ≠ .deny := by simpa using hnarrow
    revert hw hdeny
    cases s.access <;> simp
  next hpath => rw [hpath] at hres; cases hres
  next hpath => rw [hpath] at hres; cases hres
  next => exact ⟨(hoverride hnarrow).1, .inr (hoverride hnarrow).2⟩

section

variable (hcwd : fromAbsolutePath host.process cwd = some c)

include hcwd

/-- An entry that governs a path under full-disk write access has write access, or it is the read-only entry
for `/tmp`. -/
theorem write_or_tmpShadowed (hk : policy.kind = .restricted) (hnarrow : policy.hasWriteNarrowingEntries = false)
    (hroot : ⟨.root, .write⟩ ∈ policy.resolvedEntriesWithCwd host cwd)
    (hg : Governs (policy.resolvedEntriesWithCwd host cwd) target entry) :
    entry.access = .write ∨ TmpShadowed policy host cwd target := by
  by_cases hw : entry.access = .write
  · exact .inl hw
  refine .inr ?_
  obtain ⟨s, hs, hsacc, hspath⟩ := mem_resolvedEntries.mp hg.mem
  rw [hcwd] at hspath
  have hsnarrow : policy.narrowsWrite s = false := by
    have hnone : policy.entries.any policy.narrowsWrite = false := by
      simpa [hasWriteNarrowingEntries, hk] using hnarrow
    exact eq_false_of_not_eq_true (List.any_eq_false.mp hnone s hs)
  obtain ⟨hread, hcase⟩ := override_of_not_narrowsWrite hsnarrow (hsacc ▸ hw) hspath
  have hnowrite := not_write_of_governs hg (hsacc.symm.trans hread)
  rcases hcase with hsroot | ⟨o, ho, how, hshare⟩
  · rw [hsroot] at hspath
    have hpath : root = entry.path := Option.some.inj hspath
    exact absurd (hpath ▸ hroot) hnowrite
  rcases resolveEntryPath_of_shareTarget hshare hspath with hopath | ⟨-, hstmp, hdir⟩
  · refine absurd (mem_resolvedEntries.mpr ⟨o, ho, how, ?_⟩) hnowrite
    rw [hcwd]
    exact hopath
  · rw [hstmp] at hspath
    have htmp : slashTmp = entry.path := Option.some.inj hspath
    refine ⟨hk, hdir, ⟨s, hs, hstmp, hread⟩, htmp ▸ hg.covers, ?_⟩
    intro f hf hfw hfcov hftmp
    -- such an entry would have the path of the governing one
    rw [htmp] at hftmp
    have hpath := startsWith_antisymm hftmp (hg.key_prefix hf hfcov)
    have heq : f = ⟨entry.path, .write⟩ := ResolvedFileSystemEntry.ext hpath hfw
    exact hnowrite (heq ▸ hf)

/-- With full-disk write access everything resolves to write access but what a read-only `/tmp` entry shadows. -/
theorem resolveAccess_of_hasFullDiskWriteAccess (ht : resolveCandidatePath host path cwd = some target)
    (hfull : policy.hasFullDiskWriteAccess) (hshadow : ¬ TmpShadowed policy host cwd target) :
    policy.resolveAccessWithCwd host path cwd = .write := by
  unfold hasFullDiskWriteAccess at hfull
  split at hfull
  next hk => simp [resolveAccessWithCwd, hk]
  next hk => simp [resolveAccessWithCwd, hk]
  next hk =>
    obtain ⟨hroot, hnarrow⟩ := and_eq_true_iff.mp hfull
    obtain ⟨access, hwrite, hmem⟩ := exists_root_entry hroot hcwd
    rw [FileSystemAccessMode.canWrite_iff.mp hwrite] at hmem
    obtain ⟨e, hg⟩ := exists_governs hmem (startsWith_root target)
    refine (resolveAccess_eq_iff hk ht (by decide)).mpr ⟨e, hg, ?_⟩
    exact (write_or_tmpShadowed hcwd hk (by simpa using hnarrow) hmem hg).resolve_right hshadow

theorem canWrite_iff_of_hasFullDiskWriteAccess (ht : resolveCandidatePath host path cwd = some target)
    (hfull : policy.hasFullDiskWriteAccess) :
    policy.canWritePathWithCwd host path cwd ↔ ¬ TmpShadowed policy host cwd target := by
  constructor
  · intro hcan hshadow
    rw [not_canWrite_of_tmpShadowed ht hshadow] at hcan
    cases hcan
  · intro hshadow
    simp [canWritePathWithCwd, hfull, resolveAccess_of_hasFullDiskWriteAccess hcwd ht hfull hshadow]

end

end

/-- Full-disk access is access to every path, but for what a read-only `/tmp` entry shadows. -/
theorem hasFullDiskAccess_iff (policy : FileSystemSandboxPolicy) (host : Host) {cwd path : Path}
    (hcwd : cwd.isAbsolute) {target : AbsolutePathBuf} (ht : resolveCandidatePath host path cwd = some target) :
    (policy.hasFullDiskWriteAccess = true →
      (policy.resolveAccessWithCwd host path cwd = .write ∧ policy.canWritePathWithCwd host path cwd = true ↔
        ¬ TmpShadowed policy host cwd target)) ∧
    (policy.hasFullDiskReadAccess = true → policy.canReadPathWithCwd host path cwd = true) := by
  obtain ⟨c, hc⟩ := exists_fromAbsolutePath host.process hcwd
  refine ⟨fun hfull => ?_, canRead_of_hasFullDiskReadAccess hc ht⟩
  have hcan := canWrite_iff_of_hasFullDiskWriteAccess hc ht hfull
  exact ⟨fun h => hcan.mp h.2, fun h => ⟨resolveAccess_of_hasFullDiskWriteAccess hc ht hfull h, hcan.mpr h⟩⟩

def tmpFile : AbsolutePathBuf := ⟨["tmp".toList, "x".toList], by decide⟩

def bareHost : Host := ⟨⟨some .root, none⟩, none, fun _ => none, fun _ => none⟩

def tmpTwice : FileSystemSandboxPolicy :=
  .restricted [⟨.special .root, .write, none⟩, ⟨.path slashTmp, .read, none⟩, ⟨.special .slashTmp, .write, none⟩]

def tmpHost : Host := { bareHost with node := fun _ => some .dir, canonicalize := some }

/-- With a directory `/tmp`, the write entry for it wins over the read entry. -/
theorem hasFullDiskAccess_tmpFile : tmpTwice.hasFullDiskWriteAccess = true ∧
    tmpTwice.canWritePathWithCwd tmpHost tmpFile.asPath slashTmp.asPath = true ∧
    ¬ TmpShadowed tmpTwice tmpHost slashTmp.asPath tmpFile ∧
    tmpTwice.canReadPathWithCwd tmpHost tmpFile.asPath slashTmp.asPath = true := by
  have hiff := hasFullDiskAccess_iff tmpTwice tmpHost (Path.isAbsolute_asPath slashTmp)
    (resolveCandidatePath_asPath tmpHost tmpFile slashTmp.asPath)
  exact ⟨by decide, by decide, (hiff.1 (by decide)).mp (by decide), hiff.2 (by decide)⟩

/-- Without a directory `/tmp`, the write entry `:slash_tmp` stands for no path and the read entry decides. -/
theorem not_canWrite_tmpFile : tmpTwice.hasFullDiskWriteAccess = true ∧
    tmpTwice.resolveAccessWithCwd bareHost tmpFile.asPath slashTmp.asPath = .read ∧
    tmpTwice.canWritePathWithCwd bareHost tmpFile.asPath slashTmp.asPath = false := by
  decide

end Dcode.Permissions
