import Dcode.Permissions.Proofs.UpdateProofs

/-!
# The order of the entries of a policy

Only the metadata rule looks at the order: of the roots with the path in a metadata directory it takes the first.
-/

namespace Dcode.Permissions

open FileSystemSandboxPolicy

section

variable {P : FileSystemSandboxPolicy} {host : Host} {path cwd : Path} {target : AbsolutePathBuf}
  {e : ResolvedFileSystemEntry}

/-- The first entry decides for the metadata rule, if the path lies in a metadata directory of it. -/
theorem exists_metadataChildOfWritableRoot_first {rest : List ResolvedFileSystemEntry}
    (h : P.resolvedEntriesWithCwd host cwd = e :: rest) (hw : e.access = .write)
    (hchild : metadataChild host target e ≠ none) :
    ∃ m ∈ protectedMetadataPathNames,
      metadataChildOfWritableRoot host P target cwd = some (e.path.join host.process m, m) := by
  obtain ⟨⟨w, m⟩, hsome⟩ := Option.ne_none_iff_exists'.mp hchild
  obtain ⟨hm, rfl, -⟩ := metadataChild_eq_some.mp hsome
  refine ⟨m, hm, ?_⟩
  simp [metadataChildOfWritableRoot, h, FileSystemAccessMode.canWrite_iff.mpr hw, hsome]

/-! ### Permutations -/

variable {entries : List FileSystemSandboxEntry}

section

variable (h : entries.Perm P.entries)

include h

theorem mem_resolvedEntries_perm : e ∈ (restricted entries).resolvedEntriesWithCwd host cwd ↔
      e ∈ P.resolvedEntriesWithCwd host cwd :=
  (h.filterMap _).mem_iff

theorem governs_perm : Governs ((restricted entries).resolvedEntriesWithCwd host cwd) target e ↔
      Governs (P.resolvedEntriesWithCwd host cwd) target e :=
  ⟨fun hg => hg.of_covering ((mem_resolvedEntries_perm h).mp hg.mem) fun _ hj _ => (mem_resolvedEntries_perm h).mpr hj,
    fun hg => hg.of_covering ((mem_resolvedEntries_perm h).mpr hg.mem) fun _ hj _ => (mem_resolvedEntries_perm h).mp hj⟩

theorem nestedMetadataRoots_perm :
    NestedMetadataRoots host cwd (.restricted entries) target ↔ NestedMetadataRoots host cwd P target := by
  simp [NestedMetadataRoots, governs_perm h, mem_resolvedEntries_perm h]

end

section

variable (hk : P.kind = .restricted)

include hk

theorem hasFullDiskWriteAccess_perm (h : entries.Perm P.entries) :
    (restricted entries).hasFullDiskWriteAccess = P.hasFullDiskWriteAccess := by
  have hmem : ∀ s, s ∈ entries ↔ s ∈ P.entries := fun s => h.mem_iff
  exact Bool.eq_iff_iff.mpr
    ⟨hasFullDiskWriteAccess_mono rfl hk (fun s => (hmem s).mp) fun s hs => .inl ((hmem s).mpr hs),
      hasFullDiskWriteAccess_mono hk rfl (fun s => (hmem s).mpr) fun s hs => .inl ((hmem s).mp hs)⟩

theorem resolveAccess_perm (ht : resolveCandidatePath host path cwd = some target) (h : entries.Perm P.entries) :
    (restricted entries).resolveAccessWithCwd host path cwd = P.resolveAccessWithCwd host path cwd :=
  resolveAccess_congr rfl hk ht fun _ _ => mem_resolvedEntries_perm h

/-- Whether a path can be written that lies in a metadata directory of the first entry. -/
theorem exists_perm_canWrite_iff (hfull : P.hasFullDiskWriteAccess = false)
    (ht : resolveCandidatePath host path cwd = some target) (hg : Governs (P.resolvedEntriesWithCwd host cwd) target e)
    (hw : e.access = .write) {f : ResolvedFileSystemEntry} (hf : f ∈ P.resolvedEntriesWithCwd host cwd)
    (hfw : f.access = .write) (hchild : metadataChild host target f ≠ none) :
    ∃ entries : List FileSystemSandboxEntry, entries.Perm P.entries ∧
      ((restricted entries).canWritePathWithCwd host path cwd ↔ f.path ≠ e.path) := by
  obtain ⟨s, hs, hacc, hpath⟩ := mem_resolvedEntries.mp hf
  have hperm := (List.perm_cons_erase hs).symm
  have hhead : (restricted (s :: P.entries.erase s)).resolvedEntriesWithCwd host cwd =
      f :: (restricted (P.entries.erase s)).resolvedEntriesWithCwd host cwd := by
    simp [resolvedEntriesWithCwd, restricted, hpath, hacc]
  obtain ⟨m, hm, hfirst⟩ := exists_metadataChildOfWritableRoot_first hhead hfw hchild
  refine ⟨_, hperm, ?_⟩
  rw [canWrite_iff_of_governs rfl ((hasFullDiskWriteAccess_perm hk hperm).trans hfull) ht ((governs_perm hperm).mpr hg),
    and_iff_right hw, hfirst]
  constructor
  · intro hall heq
    exact hall m (by rw [heq])
  · intro hne n hsome
    obtain ⟨hjoin, rfl⟩ := Prod.mk.inj (Option.some.inj hsome)
    exact hne (join_protected_inj hm hjoin)

theorem canWrite_perm (ht : resolveCandidatePath host path cwd = some target)
    (hcond : P.hasFullDiskWriteAccess ∨ ¬ NestedMetadataRoots host cwd P target) (h : entries.Perm P.entries) :
    (restricted entries).canWritePathWithCwd host path cwd = P.canWritePathWithCwd host path cwd := by
  have hfull := hasFullDiskWriteAccess_perm hk h
  rw [Bool.eq_iff_iff]
  by_cases hwrite : P.resolveAccessWithCwd host path cwd = .write
  · cases hf : P.hasFullDiskWriteAccess with
    | true => simp [canWrite_iff, resolveAccess_perm hk ht h, hf, hfull]
    | false =>
      obtain ⟨e, hg, hw⟩ := (resolveAccess_eq_iff hk ht (by decide)).mp hwrite
      have hnested := hcond.resolve_left (by simp [hf])
      have hg' := (governs_perm h).mpr hg
      rw [canWrite_iff_of_governs rfl (hfull.trans hf) ht hg', canWrite_iff_of_governs hk hf ht hg, ← not_exists,
        ← not_exists, metadataChildOfWritableRoot_iff hg' hw (mt (nestedMetadataRoots_perm h).mp hnested),
        metadataChildOfWritableRoot_iff hg hw hnested]
  · simp [canWrite_iff, resolveAccess_perm hk ht h, hwrite]

end

end

/-- The access of a path does not depend on the order of the entries, and neither does writing it, unless it lies
in metadata directories of two roots one inside the other. -/
theorem access_perm_iff {policy : FileSystemSandboxPolicy} (hk : policy.kind = .restricted) {host : Host}
    {cwd path : Path} {target : AbsolutePathBuf} (ht : resolveCandidatePath host path cwd = some target) :
    (∀ entries : List FileSystemSandboxEntry, entries.Perm policy.entries →
      (restricted entries).resolveAccessWithCwd host path cwd = policy.resolveAccessWithCwd host path cwd) ∧
    ((∀ entries : List FileSystemSandboxEntry, entries.Perm policy.entries →
      (restricted entries).canWritePathWithCwd host path cwd = policy.canWritePathWithCwd host path cwd) ↔
      policy.hasFullDiskWriteAccess = true ∨ ¬ NestedMetadataRoots host cwd policy target) := by
  refine ⟨fun _ hperm => resolveAccess_perm hk ht hperm, ?_, fun hcond _ hperm => canWrite_perm hk ht hcond hperm⟩
  -- with two such roots, the one whose entry comes first decides
  intro hsame
  by_contra hnot
  push Not at hnot
  obtain ⟨hnofull, e, f, hg, hw, hechild, hf, hfw, hne, hfchild⟩ := hnot
  have hfull := Bool.eq_false_of_not_eq_true hnofull
  obtain ⟨l, hl, hinner⟩ := exists_perm_canWrite_iff hk hfull ht hg hw hg.mem hw hechild
  obtain ⟨l', hl', houter⟩ := exists_perm_canWrite_iff hk hfull ht hg hw hf hfw hfchild
  rw [hsame l hl] at hinner
  rw [hsame l' hl'] at houter
  exact hinner.mp (houter.mpr hne) rfl

def metadataDir : AbsolutePathBuf := ⟨["w".toList, ".git".toList, "sub".toList], by decide⟩
def nestedMetadataFile : AbsolutePathBuf :=
  ⟨["w".toList, ".git".toList, "sub".toList, ".git".toList, "x".toList], by decide⟩

def metadataRoots : List FileSystemSandboxEntry := [⟨.path workDir, .write, none⟩, ⟨.path metadataDir, .write, none⟩]

def workGitConfig : AbsolutePathBuf := ⟨["w".toList, ".git".toList, "config".toList], by decide⟩

theorem access_perm_workDir :
    resolveAccessWithCwd (.restricted metadataRoots.reverse) nestedHost workGitConfig.asPath workDir.asPath =
      resolveAccessWithCwd (.restricted metadataRoots) nestedHost workGitConfig.asPath workDir.asPath ∧
    canWritePathWithCwd (.restricted metadataRoots.reverse) nestedHost workGitConfig.asPath workDir.asPath =
      canWritePathWithCwd (.restricted metadataRoots) nestedHost workGitConfig.asPath workDir.asPath := by
  have hperm := @access_perm_iff (.restricted metadataRoots) rfl _ _ _ _
    (resolveCandidatePath_asPath nestedHost workGitConfig workDir.asPath)
  -- only the outer root has a metadata directory around the path
  have hchild : ∀ f ∈ resolvedEntriesWithCwd (.restricted metadataRoots) nestedHost workDir.asPath,
      metadataChild nestedHost workGitConfig f ≠ none → f.path = workDir := by
    decide
  have hnested : ¬ NestedMetadataRoots nestedHost workDir.asPath (.restricted metadataRoots) workGitConfig := by
    rintro ⟨e, f, hg, -, he, hf, -, hne, hf'⟩
    exact hne ((hchild f hf hf').trans (hchild e hg.mem he).symm)
  exact ⟨hperm.1 _ (List.reverse_perm _), hperm.2.mpr (.inr hnested) _ (List.reverse_perm _)⟩

/-- The order of the two decides about the git directory of the inner one. -/
theorem canWrite_metadataRoots : metadataRoots.reverse.Perm metadataRoots ∧
    canWritePathWithCwd (.restricted metadataRoots) nestedHost nestedMetadataFile.asPath workDir.asPath = true ∧
    canWritePathWithCwd (.restricted metadataRoots.reverse) nestedHost
      nestedMetadataFile.asPath workDir.asPath = false :=
  ⟨List.reverse_perm _, by decide, by decide⟩

end Dcode.Permissions
