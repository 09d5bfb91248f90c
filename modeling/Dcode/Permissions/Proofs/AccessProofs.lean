import Dcode.Permissions.Policy
import Dcode.Proofs.AbsolutePathProofs

/-!
# The access a policy gives to a path

The entry that governs a path decides about reading it. For writing, the metadata rule only matters where the
governing entry is the writable root whose metadata directory the path lies in.
-/

namespace Dcode.Permissions

open MostSpecific List AbsolutePathBuf FileSystemSandboxPolicy

namespace FileSystemAccessMode

variable {access : FileSystemAccessMode}

@[simp] theorem canWrite_iff : access.canWrite ↔ access = write := by
  simp [canWrite]

@[simp] theorem canWrite_eq_false : access.canWrite = false ↔ access ≠ write := by
  simp [canWrite]

@[simp] theorem canRead_iff : access.canRead ↔ access ≠ deny := by
  simp [canRead]

theorem le_deny (access : FileSystemAccessMode) : access ≤ deny := by
  cases access <;> decide

end FileSystemAccessMode

/-! ## Names of metadata directories -/

variable {m : Str}

theorem metadataPathName_eq_some {name : Str} :
    metadataPathName name = some m ↔ name = m ∧ m ∈ protectedMetadataPathNames := by
  constructor
  · intro h
    have hname : name = m := by simpa using find?_some h
    exact ⟨hname, mem_of_find?_eq_some h⟩
  · rintro ⟨rfl, hm⟩
    cases h : metadataPathName name with
    | none => simpa using find?_eq_none.mp h name hm
    | some m =>
      have hname : name = m := by simpa using find?_some h
      rw [hname]

theorem normalComponent_of_protected (h : m ∈ protectedMetadataPathNames) : NormalComponent m ∧ m.head? ≠ some '~' := by
  revert m
  decide

@[simp] theorem join_protected_components (host : Host) (path : AbsolutePathBuf) (h : m ∈ protectedMetadataPathNames) :
    (path.join host.process m).components = path.components ++ [m] :=
  path.join_components host.process (normalComponent_of_protected h).1 (normalComponent_of_protected h).2

theorem join_protected_inj {host : Host} {p q : AbsolutePathBuf} (hm : m ∈ protectedMetadataPathNames)
    (h : p.join host.process m = q.join host.process m) : p = q := by
  have hcomponents := congrArg components h
  rw [join_protected_components host p hm, join_protected_components host q hm] at hcomponents
  exact eq_of_components (append_cancel_right hcomponents)

theorem metadataChild_eq_some {host : Host} {target w : AbsolutePathBuf} {entry : ResolvedFileSystemEntry} :
    metadataChild host target entry = some (w, m) ↔
      m ∈ protectedMetadataPathNames ∧ w = entry.path.join host.process m ∧
        entry.path.components ++ [m] <+: target.components := by
  unfold metadataChild
  constructor
  · intro h
    obtain ⟨relative, hrel, h⟩ := Option.bind_eq_some_iff.mp h
    obtain ⟨first, hfirst, h⟩ := Option.bind_eq_some_iff.mp h
    obtain ⟨name, hname, h⟩ := Option.bind_eq_some_iff.mp h
    obtain ⟨rfl, hm⟩ := metadataPathName_eq_some.mp hname
    cases h
    obtain ⟨rest, rfl⟩ := head?_eq_some_iff.mp hfirst
    refine ⟨hm, rfl, rest, ?_⟩
    rw [AbsolutePathBuf.stripPrefix_eq_some.mp hrel, append_assoc]
    rfl
  · rintro ⟨hm, rfl, rest, hrest⟩
    have hrel : target.stripPrefix entry.path = some (m :: rest) := by
      rw [stripPrefix_eq_some, ← hrest, append_assoc]
      rfl
    have hname : metadataPathName m = some m := metadataPathName_eq_some.mpr ⟨rfl, hm⟩
    simp [hrel, hname]

/-! ## The governing entry -/

abbrev Governs (entries : List ResolvedFileSystemEntry) (path : AbsolutePathBuf)
    (entry : ResolvedFileSystemEntry) : Prop :=
  Wins (fun entry => entry.path.components) (·.access) entries path.components entry

/-- The path lies in a metadata directory of the entry with write access that governs it, and of another one
further up. -/
def NestedMetadataRoots (host : Host) (cwd : Path) (policy : FileSystemSandboxPolicy) (target : AbsolutePathBuf) :
    Prop :=
  ∃ e f, Governs (policy.resolvedEntriesWithCwd host cwd) target e ∧ e.access = .write ∧
    metadataChild host target e ≠ none ∧ f ∈ policy.resolvedEntriesWithCwd host cwd ∧ f.access = .write ∧
    f.path ≠ e.path ∧ metadataChild host target f ≠ none

section

variable {policy : FileSystemSandboxPolicy} {host : Host} {path cwd : Path} {target : AbsolutePathBuf}
  {entry : ResolvedFileSystemEntry}

theorem resolveCandidatePath_asPath (host : Host) (path : AbsolutePathBuf) (cwd : Path) :
    resolveCandidatePath host path.asPath cwd = some path := by
  rw [resolveCandidatePath, if_pos (Path.isAbsolute_asPath path), fromAbsolutePath_asPath]

theorem exists_governs (hmem : entry ∈ policy.resolvedEntriesWithCwd host cwd) (hcov : target.startsWith entry.path) :
    ∃ e, Governs (policy.resolvedEntriesWithCwd host cwd) target e :=
  exists_wins hmem hcov

section

variable (hk : policy.kind = .restricted)

include hk

theorem resolveAccess_of_governs (ht : resolveCandidatePath host path cwd = some target)
    (h : Governs (policy.resolvedEntriesWithCwd host cwd) target entry) :
    policy.resolveAccessWithCwd host path cwd = entry.access := by
  have hcov : entry ∈ (policy.resolvedEntriesWithCwd host cwd).filter fun e => target.startsWith e.path :=
    mem_filter.mpr ⟨h.mem, decide_eq_true h.covers⟩
  simp only [resolveAccessWithCwd, hk, ht]
  cases hmax : maxByKey resolvedEntryPrecedence
      ((policy.resolvedEntriesWithCwd host cwd).filter fun e => target.startsWith e.path) with
  | none =>
    rw [maxByKey_eq_none.mp hmax] at hcov
    cases hcov
  | some best =>
    obtain ⟨hbest, hbcov⟩ := mem_filter.mp (mem_of_maxByKey hmax)
    have hwins : Governs (policy.resolvedEntriesWithCwd host cwd) target best := by
      refine wins_of_le hbest (of_decide_eq_true hbcov) ?_
      intro e he hec
      have hle := le_of_maxByKey hmax (mem_filter.mpr ⟨he, decide_eq_true hec⟩)
      simpa [resolvedEntryPrecedence, Prod.Lex.le_iff] using hle
    exact hwins.value_eq h

theorem resolveAccess_of_not_covered (ht : resolveCandidatePath host path cwd = some target)
    (h : ∀ e ∈ policy.resolvedEntriesWithCwd host cwd, ¬ target.startsWith e.path) :
    policy.resolveAccessWithCwd host path cwd = .deny := by
  have hnil : (policy.resolvedEntriesWithCwd host cwd).filter (fun e => target.startsWith e.path) = [] :=
    filter_eq_nil_iff.mpr (by simpa using h)
  simp only [resolveAccessWithCwd, hk, ht, hnil]
  rfl

/-- An access other than deny comes from the governing entry. -/
theorem resolveAccess_eq_iff (ht : resolveCandidatePath host path cwd = some target) {access : FileSystemAccessMode}
    (ha : access ≠ .deny) : policy.resolveAccessWithCwd host path cwd = access ↔
      ∃ e, Governs (policy.resolvedEntriesWithCwd host cwd) target e ∧ e.access = access := by
  constructor
  · intro h
    by_cases hcov : ∃ e ∈ policy.resolvedEntriesWithCwd host cwd, target.startsWith e.path
    · obtain ⟨e, he, hec⟩ := hcov
      obtain ⟨best, hbest⟩ := exists_governs he hec
      exact ⟨best, hbest, (resolveAccess_of_governs hk ht hbest).symm.trans h⟩
    · push Not at hcov
      exact absurd (h.symm.trans (resolveAccess_of_not_covered hk ht hcov)) ha
  · rintro ⟨e, he, rfl⟩
    exact resolveAccess_of_governs hk ht he

theorem canRead_iff_governs (ht : resolveCandidatePath host path cwd = some target) :
    policy.canReadPathWithCwd host path cwd ↔
      ∃ e, Governs (policy.resolvedEntriesWithCwd host cwd) target e ∧ e.access ≠ .deny := by
  rw [canReadPathWithCwd, FileSystemAccessMode.canRead_iff]
  constructor
  · intro h
    obtain ⟨e, he, hacc⟩ := (resolveAccess_eq_iff hk ht h).mp rfl
    exact ⟨e, he, hacc ▸ h⟩
  · rintro ⟨e, he, hacc⟩
    rwa [resolveAccess_of_governs hk ht he]

end

/-! ## The metadata rule -/

/-- The first entry with write access under which the target lies in a metadata directory. -/
theorem exists_of_metadataChildOfWritableRoot {w : AbsolutePathBuf}
    (h : metadataChildOfWritableRoot host policy target cwd = some (w, m)) :
    ∃ e ∈ policy.resolvedEntriesWithCwd host cwd, e.access = .write ∧ metadataChild host target e = some (w, m) := by
  have hmem := mem_of_head? h
  obtain ⟨e, he, hchild⟩ := mem_filterMap.mp hmem
  obtain ⟨hmem, hwrite⟩ := mem_filter.mp he
  exact ⟨e, hmem, FileSystemAccessMode.canWrite_iff.mp hwrite, hchild⟩

theorem hasExplicitWriteEntry_iff {w : AbsolutePathBuf} :
    hasExplicitWriteEntryForMetadataPath host policy w target cwd ↔
      ∃ e ∈ policy.resolvedEntriesWithCwd host cwd, e.access = .write ∧
        target.startsWith e.path ∧ e.path.startsWith w := by
  simp [hasExplicitWriteEntryForMetadataPath, and_assoc]

theorem isMetadataWriteDenied_iff (hk : policy.kind = .restricted)
    (ht : resolveCandidatePath host path cwd = some target) :
    policy.isMetadataWriteDenied host path cwd ↔
      ∃ w m, metadataChildOfWritableRoot host policy target cwd = some (w, m) ∧
        hasExplicitWriteEntryForMetadataPath host policy w target cwd = false := by
  unfold isMetadataWriteDenied
  rw [if_neg (by simp [hk])]
  simp only [ht]
  cases metadataChildOfWritableRoot host policy target cwd with
  | none => simp
  | some child =>
    obtain ⟨w, m⟩ := child
    simp

/-- Where an entry with write access governs, only a metadata directory of that entry is protected: a
metadata directory further up contains the path of the governing entry. -/
theorem isMetadataWriteDenied_iff_governs (hk : policy.kind = .restricted)
    (ht : resolveCandidatePath host path cwd = some target)
    (hg : Governs (policy.resolvedEntriesWithCwd host cwd) target entry) (hw : entry.access = .write) :
    policy.isMetadataWriteDenied host path cwd ↔ ∃ m, metadataChildOfWritableRoot host policy target cwd =
        some (entry.path.join host.process m, m) := by
  rw [isMetadataWriteDenied_iff hk ht]
  constructor
  · rintro ⟨w, m, hchild, hexplicit⟩
    obtain ⟨e, he, hew, hec⟩ := exists_of_metadataChildOfWritableRoot hchild
    obtain ⟨hm, rfl, hcov⟩ := metadataChild_eq_some.mp hec
    have hup : e.path.components <+: entry.path.components :=
      hg.key_prefix he ((prefix_append _ _).trans hcov)
    by_cases hlen : e.path.components.length < entry.path.components.length
    · have hbelow : entry.path.startsWith (e.path.join host.process m) := by
        rw [startsWith, join_protected_components host e.path hm]
        refine prefix_of_prefix_length_le hcov hg.covers ?_
        simpa using hlen
      have hsome := hasExplicitWriteEntry_iff.mpr ⟨entry, hg.mem, hw, hg.covers, hbelow⟩
      rw [hsome] at hexplicit
      cases hexplicit
    · have heq : e.path = entry.path :=
        eq_of_components (hup.eq_of_length_le (Nat.le_of_not_lt hlen))
      exact ⟨m, heq ▸ hchild⟩
  · rintro ⟨m, hchild⟩
    refine ⟨_, m, hchild, ?_⟩
    obtain ⟨e, -, -, hec⟩ := exists_of_metadataChildOfWritableRoot hchild
    obtain ⟨hm, -, -⟩ := metadataChild_eq_some.mp hec
    apply Bool.eq_false_of_not_eq_true
    intro hsome
    obtain ⟨g, hgm, -, hgt, hgw⟩ := hasExplicitWriteEntry_iff.mp hsome
    have hlong := hg.longest g hgm hgt
    have hlen := hgw.length_le
    rw [join_protected_components host entry.path hm, length_append, length_singleton] at hlen
    omega

section

variable (hg : Governs (policy.resolvedEntriesWithCwd host cwd) target entry)

include hg

/-- The metadata rule looks at the same entry for the target and for the metadata directory of the governing
entry that the target lies in. -/
theorem metadataChildOfWritableRoot_join (hm : m ∈ protectedMetadataPathNames)
    (hcov : entry.path.components ++ [m] <+: target.components) :
    metadataChildOfWritableRoot host policy (entry.path.join host.process m) cwd =
      metadataChildOfWritableRoot host policy target cwd := by
  unfold metadataChildOfWritableRoot
  congr 1
  apply filterMap_congr
  intro e he
  have hmem := (mem_filter.mp he).1
  refine Option.ext fun ⟨w, n⟩ => ?_
  rw [metadataChild_eq_some, metadataChild_eq_some, join_protected_components host entry.path hm]
  refine and_congr_right fun hn => and_congr_right fun _ => ⟨fun h => h.trans hcov, fun h => ?_⟩
  have hup := hg.key_prefix hmem ((prefix_append _ _).trans h)
  refine prefix_of_prefix_length_le h hcov ?_
  simpa using hup.length_le

/-- Without another root further up, a path in a metadata directory of the governing entry is protected. -/
theorem metadataChildOfWritableRoot_iff (hw : entry.access = .write)
    (hnested : ¬ NestedMetadataRoots host cwd policy target) :
    (∃ m, metadataChildOfWritableRoot host policy target cwd = some (entry.path.join host.process m, m)) ↔
      metadataChild host target entry ≠ none := by
  constructor
  · rintro ⟨m, hchild⟩
    obtain ⟨f, -, -, hf⟩ := exists_of_metadataChildOfWritableRoot hchild
    obtain ⟨hm, hjoin, -⟩ := metadataChild_eq_some.mp hf
    rw [metadataChild, join_protected_inj hm hjoin, ← metadataChild, hf]
    exact nofun
  · intro hchild
    have hmem : entry ∈ (policy.resolvedEntriesWithCwd host cwd).filter fun e => e.access.canWrite :=
      mem_filter.mpr ⟨hg.mem, FileSystemAccessMode.canWrite_iff.mpr hw⟩
    cases hfirst : metadataChildOfWritableRoot host policy target cwd with
    | none =>
      rw [metadataChildOfWritableRoot, head?_eq_none_iff, filterMap_eq_nil_iff] at hfirst
      exact absurd (hfirst entry hmem) hchild
    | some first =>
      obtain ⟨w, m⟩ := first
      obtain ⟨f, hf, hfw, hfm⟩ := exists_of_metadataChildOfWritableRoot hfirst
      have hpath : f.path = entry.path := by
        by_contra hne
        exact hnested ⟨entry, f, hg, hw, hchild, hf, hfw, hne, by rw [hfm]; exact nofun⟩
      exact ⟨m, by rw [(metadataChild_eq_some.mp hfm).2.1, hpath]⟩

end

/-! ## Writing -/

section

variable (hk : policy.kind = .restricted)

include hk

theorem canWrite_iff_of_governs (hfull : policy.hasFullDiskWriteAccess = false)
    (ht : resolveCandidatePath host path cwd = some target)
    (hg : Governs (policy.resolvedEntriesWithCwd host cwd) target entry) :
    policy.canWritePathWithCwd host path cwd ↔ entry.access = .write ∧
      ∀ m, metadataChildOfWritableRoot host policy target cwd ≠ some (entry.path.join host.process m, m) := by
  rw [canWritePathWithCwd, resolveAccess_of_governs hk ht hg, hfull]
  by_cases hw : entry.access = .write
  · have hden := isMetadataWriteDenied_iff_governs hk ht hg hw
    simp [hw, ← Bool.not_eq_true, hden]
  · simp [hw, FileSystemAccessMode.canWrite]

/-- What can be written is governed by an entry with write access. -/
theorem exists_governs_of_canWrite (ht : resolveCandidatePath host path cwd = some target)
    (h : policy.canWritePathWithCwd host path cwd) :
    ∃ e, Governs (policy.resolvedEntriesWithCwd host cwd) target e ∧ e.access = .write := by
  apply (resolveAccess_eq_iff hk ht (by decide)).mp
  by_contra hne
  have hfalse : (policy.resolveAccessWithCwd host path cwd).canWrite = false := by simpa using hne
  simp [canWritePathWithCwd, hfalse] at h

/-- The metadata rule never hits the path of a governing entry itself. -/
theorem canWrite_entry_iff (hfull : policy.hasFullDiskWriteAccess = false)
    (hg : Governs (policy.resolvedEntriesWithCwd host cwd) entry.path entry) :
    policy.canWritePathWithCwd host entry.path.asPath cwd ↔ entry.access = .write := by
  rw [canWrite_iff_of_governs hk hfull (resolveCandidatePath_asPath host entry.path cwd) hg]
  refine and_iff_left ?_
  intro m hchild
  obtain ⟨e, -, -, hec⟩ := exists_of_metadataChildOfWritableRoot hchild
  obtain ⟨hm, hw, hcov⟩ := metadataChild_eq_some.mp hec
  have hlen := congrArg (fun p : AbsolutePathBuf => p.components.length) hw
  simp only [join_protected_components host _ hm, length_append, length_singleton] at hlen
  have hle := hcov.length_le
  rw [length_append, length_singleton] at hle
  omega

/-- Inside a metadata directory of the governing entry, a path can be written if the directory can. -/
theorem canWrite_join_iff (hfull : policy.hasFullDiskWriteAccess = false)
    (ht : resolveCandidatePath host path cwd = some target)
    (hg : Governs (policy.resolvedEntriesWithCwd host cwd) target entry) (hm : m ∈ protectedMetadataPathNames)
    (hcov : entry.path.components ++ [m] <+: target.components) :
    policy.canWritePathWithCwd host (entry.path.join host.process m).asPath cwd ↔
      policy.canWritePathWithCwd host path cwd := by
  have hbetween : Governs (policy.resolvedEntriesWithCwd host cwd) (entry.path.join host.process m) entry := by
    refine hg.between ?_ ?_
    · rw [join_protected_components host entry.path hm]
      exact prefix_append _ _
    · rwa [join_protected_components host entry.path hm]
  rw [canWrite_iff_of_governs hk hfull (resolveCandidatePath_asPath host _ cwd) hbetween,
    canWrite_iff_of_governs hk hfull ht hg, metadataChildOfWritableRoot_join hg hm hcov]

end

end

end Dcode.Permissions
