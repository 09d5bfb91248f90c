import Dcode.Permissions.Update
import Dcode.Permissions.Proofs.FullDiskProofs
import Dcode.Permissions.Proofs.WritableRootsProofs

/-!
# What a change of a policy does to its access

The access of a path depends on the resolved entries that cover it, and for writing also on the full-disk flag and
on the metadata rule.
-/

namespace Dcode.Permissions

open FileSystemSandboxPolicy List FileSystemAccessMode

section

variable {P Q : FileSystemSandboxPolicy} {host : Host} {path cwd : Path} {target : AbsolutePathBuf}
  {e : ResolvedFileSystemEntry}

theorem exists_resolveCandidatePath (host : Host) (path : Path) (hcwd : cwd.isAbsolute) :
    ∃ target, resolveCandidatePath host path cwd = some target := by
  obtain ⟨c, hc⟩ := AbsolutePathBuf.exists_fromAbsolutePath host.process hcwd
  unfold resolveCandidatePath
  split
  next hpath => exact AbsolutePathBuf.exists_fromAbsolutePath host.process hpath
  next => exact ⟨_, by rw [hc]; rfl⟩

theorem canWrite_iff : P.canWritePathWithCwd host path cwd ↔ P.resolveAccessWithCwd host path cwd = .write ∧
      (P.hasFullDiskWriteAccess ∨ P.isMetadataWriteDenied host path cwd = false) := by
  unfold canWritePathWithCwd
  by_cases hw : P.resolveAccessWithCwd host path cwd = .write
  · cases hfull : P.hasFullDiskWriteAccess <;> simp
  · simp

theorem resolveAccess_congr (hP : P.kind = .restricted) (hQ : Q.kind = .restricted)
    (ht : resolveCandidatePath host path cwd = some target)
    (h : ∀ e, target.startsWith e.path →
      (e ∈ P.resolvedEntriesWithCwd host cwd ↔ e ∈ Q.resolvedEntriesWithCwd host cwd)) :
    P.resolveAccessWithCwd host path cwd = Q.resolveAccessWithCwd host path cwd := by
  by_cases hcov : ∃ e ∈ P.resolvedEntriesWithCwd host cwd, target.startsWith e.path
  · obtain ⟨e, he, hec⟩ := hcov
    obtain ⟨g, hg⟩ := exists_governs he hec
    have hgQ := hg.of_covering ((h g hg.covers).mp hg.mem) fun j hj hc => (h j hc).mpr hj
    rw [resolveAccess_of_governs hP ht hg, resolveAccess_of_governs hQ ht hgQ]
  · push Not at hcov
    rw [resolveAccess_of_not_covered hP ht hcov, resolveAccess_of_not_covered hQ ht]
    intro e he hec
    exact hcov e ((h e hec).mpr he) hec

/-! ## More entries -/

def Extends (host : Host) (cwd : Path) (P Q : FileSystemSandboxPolicy) (extra : List ResolvedFileSystemEntry) : Prop :=
  Q.kind = P.kind ∧ Q.resolvedEntriesWithCwd host cwd = P.resolvedEntriesWithCwd host cwd ++ extra

theorem extends_append (extra : List FileSystemSandboxEntry) :
    Extends host cwd P { P with entries := P.entries ++ extra } ((restricted extra).resolvedEntriesWithCwd host cwd) :=
  ⟨rfl, filterMap_append⟩

theorem extends_push (root : AbsolutePathBuf) (access : FileSystemAccessMode) :
    Extends host cwd P (P.push ⟨.path root, access, none⟩) [⟨root, access⟩] :=
  extends_append _

variable {extra : List ResolvedFileSystemEntry}

/-- The metadata rule looks at the entries with write access that cover the path. -/
theorem isMetadataWriteDenied_extends (h : Extends host cwd P Q extra)
    (ht : resolveCandidatePath host path cwd = some target)
    (hextra : ∀ e ∈ extra, e.access = .write → ¬ target.startsWith e.path) :
    Q.isMetadataWriteDenied host path cwd = P.isMetadataWriteDenied host path cwd := by
  have hchild : metadataChildOfWritableRoot host Q target cwd = metadataChildOfWritableRoot host P target cwd := by
    have hnil : (extra.filter fun e => e.access.canWrite).filterMap (metadataChild host target) = [] := by
      refine filterMap_eq_nil_iff.mpr fun e he => ?_
      obtain ⟨he, hw⟩ := mem_filter.mp he
      refine Option.eq_none_iff_forall_ne_some.mpr fun ⟨w, m⟩ hsome => ?_
      obtain ⟨-, -, hcov⟩ := metadataChild_eq_some.mp hsome
      exact hextra e he (FileSystemAccessMode.canWrite_iff.mp hw) ((prefix_append _ _).trans hcov)
    rw [metadataChildOfWritableRoot, h.2, filter_append, filterMap_append, hnil, append_nil]
    rfl
  have hexplicit : ∀ w, hasExplicitWriteEntryForMetadataPath host Q w target cwd =
      hasExplicitWriteEntryForMetadataPath host P w target cwd := by
    intro w
    have hnone : (extra.any fun e => e.access.canWrite && target.startsWith e.path && e.path.startsWith w) = false := by
      refine any_eq_false.mpr fun e he => ?_
      simp only [Bool.and_eq_true, FileSystemAccessMode.canWrite_iff, decide_eq_true_eq]
      exact fun hany => hextra e he hany.1.1 hany.1.2
    rw [hasExplicitWriteEntryForMetadataPath, h.2, any_append, hnone, Bool.or_false]
    rfl
  simp [isMetadataWriteDenied, h.1, ht, hchild, hexplicit]

/-! ## Full-disk write access -/

theorem hasFullDiskWriteAccess_iff (hk : P.kind = .restricted) : P.hasFullDiskWriteAccess ↔
    (∃ s ∈ P.entries, s.path = .special .root ∧ s.access = .write) ∧ ∀ s ∈ P.entries, P.narrowsWrite s = false := by
  simp [hasFullDiskWriteAccess, hasRootAccess, hasWriteNarrowingEntries, hk]

theorem narrowsWrite_of_subset {s : FileSystemSandboxEntry}
    (hsub : ∀ o ∈ P.entries, o.access = .write → o ∈ Q.entries) (h : P.narrowsWrite s = false) :
    Q.narrowsWrite s = false := by
  have hoverride : P.hasSameTargetWriteOverride s → Q.hasSameTargetWriteOverride s := by
    intro hany
    obtain ⟨hread, o, ho, hw, hshare⟩ := hasSameTargetWriteOverride_iff.mp hany
    exact hasSameTargetWriteOverride_iff.mpr ⟨hread, o, hsub o ho hw, hw, hshare⟩
  revert h
  unfold narrowsWrite
  split
  · exact id
  · split <;> simp_all

theorem hasFullDiskWriteAccess_mono (hP : P.kind = .restricted) (hQ : Q.kind = .restricted)
    (hsub : ∀ s ∈ P.entries, s ∈ Q.entries) (hnew : ∀ s ∈ Q.entries, s ∈ P.entries ∨ s.access = .write)
    (h : P.hasFullDiskWriteAccess) : Q.hasFullDiskWriteAccess := by
  obtain ⟨⟨r, hr, hroot⟩, hnarrow⟩ := (hasFullDiskWriteAccess_iff hP).mp h
  refine (hasFullDiskWriteAccess_iff hQ).mpr ⟨⟨r, hsub r hr, hroot⟩, fun s hs => ?_⟩
  rcases hnew s hs with hs | hw
  · exact narrowsWrite_of_subset (fun o ho _ => hsub o ho) (hnarrow s hs)
  · simp [narrowsWrite, hw]

/-- Entries without write access do not give it. -/
theorem hasFullDiskWriteAccess_of_extended (hP : P.kind = .restricted) (hQ : Q.kind = .restricted)
    (hsub : ∀ s ∈ P.entries, s ∈ Q.entries) (hnew : ∀ s ∈ Q.entries, s.access = .write → s ∈ P.entries)
    (h : Q.hasFullDiskWriteAccess) : P.hasFullDiskWriteAccess := by
  obtain ⟨⟨r, hr, hpath, hw⟩, hnarrow⟩ := (hasFullDiskWriteAccess_iff hQ).mp h
  refine (hasFullDiskWriteAccess_iff hP).mpr ⟨⟨r, hnew r hr hw, hpath, hw⟩, fun s hs => ?_⟩
  exact narrowsWrite_of_subset hnew (hnarrow s (hsub s hs))

/-! ## More roots -/

theorem canRead_of_hasFullDiskWriteAccess (hcwd : cwd.isAbsolute)
    (ht : resolveCandidatePath host path cwd = some target) (hfull : P.hasFullDiskWriteAccess) :
    P.canReadPathWithCwd host path cwd := by
  obtain ⟨c, hc⟩ := AbsolutePathBuf.exists_fromAbsolutePath host.process hcwd
  cases hk : P.kind with
  | restricted =>
    obtain ⟨⟨r, hr, hpath, hw⟩, hnarrow⟩ := (hasFullDiskWriteAccess_iff hk).mp hfull
    have hroot : ⟨.root, r.access⟩ ∈ P.resolvedEntriesWithCwd host cwd := by
      refine mem_resolvedEntries.mpr ⟨r, hr, rfl, ?_⟩
      rw [hpath, hc]
      rfl
    obtain ⟨e, hg⟩ := exists_governs hroot (startsWith_root target)
    refine (canRead_iff_governs hk ht).mpr ⟨e, hg, fun hdeny => ?_⟩
    obtain ⟨s, hs, hacc, hspath⟩ := mem_resolvedEntries.mp hg.mem
    rw [hc] at hspath
    rw [hdeny] at hacc
    have hread := (override_of_not_narrowsWrite (hnarrow s hs) (by rw [hacc]; decide) hspath).1
    rw [hacc] at hread
    cases hread
  | _ => simp [canReadPathWithCwd, resolveAccessWithCwd, hk]

section

variable {root : AbsolutePathBuf} {access : FileSystemAccessMode}

/-- The entry that governs a path goes on governing it, unless the new one lies between the two. -/
theorem governs_extends (h : Extends host cwd P Q [⟨root, access⟩])
    (hg : Governs (P.resolvedEntriesWithCwd host cwd) target e) :
    Governs (Q.resolvedEntriesWithCwd host cwd) target e ∨
      Governs (Q.resolvedEntriesWithCwd host cwd) target ⟨root, access⟩ ∧ root.startsWith e.path ∧
        target.startsWith root := by
  have hsub : ∀ j ∈ P.resolvedEntriesWithCwd host cwd, j ∈ Q.resolvedEntriesWithCwd host cwd := by
    intro j hj
    rw [h.2]
    exact mem_append_left _ hj
  obtain ⟨g, hgQ⟩ := exists_governs (hsub e hg.mem) hg.covers
  have hmem := hgQ.mem
  rw [h.2, mem_append, mem_singleton] at hmem
  rcases hmem with hmem | rfl
  · have hgP := hgQ.of_covering hmem fun j hj _ => hsub j hj
    have heq : g = e := ResolvedFileSystemEntry.ext (AbsolutePathBuf.eq_of_components (hgP.key_eq hg)) (hgP.value_eq hg)
    exact .inl (heq ▸ hgQ)
  · exact .inr ⟨hgQ, hgQ.key_prefix (hsub e hg.mem) hg.covers, hgQ.covers⟩

theorem canRead_extends (hk : P.kind = .restricted) (ht : resolveCandidatePath host path cwd = some target)
    (hext : Extends host cwd P Q [⟨root, access⟩]) (haccess : access ≠ .deny)
    (h : P.canReadPathWithCwd host path cwd) : Q.canReadPathWithCwd host path cwd := by
  obtain ⟨e, hg, hacc⟩ := (canRead_iff_governs hk ht).mp h
  refine (canRead_iff_governs (hext.1.trans hk) ht).mpr ?_
  rcases governs_extends hext hg with hg | ⟨hg, -⟩
  · exact ⟨e, hg, hacc⟩
  · exact ⟨_, hg, haccess⟩

/-- A root that could not be read takes no write access away. -/
theorem canWrite_extends_read (hk : P.kind = .restricted) (hcwd : cwd.isAbsolute)
    (ht : resolveCandidatePath host path cwd = some target) (hext : Extends host cwd P Q [⟨root, .read⟩])
    (hroot : P.canReadPathWithCwd host root.asPath cwd = false) (h : P.canWritePathWithCwd host path cwd) :
    Q.canWritePathWithCwd host path cwd := by
  have htr := resolveCandidatePath_asPath host root cwd
  obtain ⟨hwrite, hmeta⟩ := canWrite_iff.mp h
  have hdenied : P.isMetadataWriteDenied host path cwd = false := by
    refine hmeta.resolve_left fun hfull => ?_
    rw [canRead_of_hasFullDiskWriteAccess hcwd htr hfull] at hroot
    cases hroot
  rw [← isMetadataWriteDenied_extends hext ht (by simp)] at hdenied
  obtain ⟨e, hg, hw⟩ := (resolveAccess_eq_iff hk ht (by decide)).mp hwrite
  refine canWrite_iff.mpr ⟨(resolveAccess_eq_iff (hext.1.trans hk) ht (by decide)).mpr ⟨e, ?_, hw⟩, .inr hdenied⟩
  refine (governs_extends hext hg).resolve_right ?_
  rintro ⟨-, hup, hcov⟩
  have hread := (canRead_iff_governs hk htr).mpr ⟨e, hg.between hup hcov, by rw [hw]; decide⟩
  rw [hroot] at hread
  cases hread

/-- What lies between a path that can be written and the entry that governs it can be written. -/
theorem canWrite_between (hk : P.kind = .restricted) (hfull : P.hasFullDiskWriteAccess = false)
    (ht : resolveCandidatePath host path cwd = some target)
    (hg : Governs (P.resolvedEntriesWithCwd host cwd) target e) (h : P.canWritePathWithCwd host path cwd)
    (hup : root.startsWith e.path) (hcov : target.startsWith root) :
    P.canWritePathWithCwd host root.asPath cwd := by
  obtain ⟨hw, hchild⟩ := (canWrite_iff_of_governs hk hfull ht hg).mp h
  have hgroot := hg.between hup hcov
  refine (canWrite_iff_of_governs hk hfull (resolveCandidatePath_asPath host root cwd) hgroot).mpr ⟨hw, fun m hm => ?_⟩
  obtain ⟨f, -, -, hf⟩ := exists_of_metadataChildOfWritableRoot hm
  obtain ⟨hprot, hjoin, hbelow⟩ := metadataChild_eq_some.mp hf
  rw [← join_protected_inj hprot hjoin] at hbelow
  have hsame := (metadataChildOfWritableRoot_join hgroot hprot hbelow).symm.trans
    (metadataChildOfWritableRoot_join hg hprot (hbelow.trans hcov))
  exact hchild m (hsame.symm.trans hm)

/-- The new root comes last, so that the metadata rule only looks at it where no other entry counts. -/
theorem metadataChildOfWritableRoot_extends (hext : Extends host cwd P Q [⟨root, .write⟩]) :
    metadataChildOfWritableRoot host Q target cwd =
      (metadataChildOfWritableRoot host P target cwd).or (metadataChild host target ⟨root, .write⟩) := by
  rw [metadataChildOfWritableRoot, hext.2, metadataChildOfWritableRoot]
  cases h : metadataChild host target ⟨root, .write⟩ <;> simp [h]

/-- A root that could not be written takes no write access away. -/
theorem canWrite_extends_write (hk : P.kind = .restricted) (ht : resolveCandidatePath host path cwd = some target)
    (hext : Extends host cwd P Q [⟨root, .write⟩])
    (hmono : P.hasFullDiskWriteAccess → Q.hasFullDiskWriteAccess)
    (hroot : P.canWritePathWithCwd host root.asPath cwd = false) (h : P.canWritePathWithCwd host path cwd) :
    Q.canWritePathWithCwd host path cwd := by
  have hkQ := hext.1.trans hk
  obtain ⟨e, hg, hw⟩ := exists_governs_of_canWrite hk ht h
  have hwrite : Q.resolveAccessWithCwd host path cwd = .write := by
    refine (resolveAccess_eq_iff hkQ ht (by decide)).mpr ?_
    rcases governs_extends hext hg with hg | ⟨hg, -⟩
    · exact ⟨e, hg, hw⟩
    · exact ⟨_, hg, rfl⟩
  cases hfullQ : Q.hasFullDiskWriteAccess with
  | true => exact canWrite_iff.mpr ⟨hwrite, .inl hfullQ⟩
  | false =>
    have hfull : P.hasFullDiskWriteAccess = false := by
      cases hP : P.hasFullDiskWriteAccess with
      | true => rw [hmono hP] at hfullQ; cases hfullQ
      | false => rfl
    have hno : ∀ {p : AbsolutePathBuf}, P.canWritePathWithCwd host p.asPath cwd → p ≠ root := by
      rintro p hp rfl
      rw [hroot] at hp
      cases hp
    have hgQ := (governs_extends hext hg).resolve_right fun hright =>
      hno (canWrite_between hk hfull ht hg h hright.2.1 hright.2.2) rfl
    refine (canWrite_iff_of_governs hkQ hfullQ ht hgQ).mpr ⟨hw, fun m hm => ?_⟩
    rw [metadataChildOfWritableRoot_extends hext, Option.or_eq_some_iff] at hm
    rcases hm with hm | ⟨-, hm⟩
    · exact ((canWrite_iff_of_governs hk hfull ht hg).mp h).2 m hm
    · obtain ⟨hprot, hjoin, -⟩ := metadataChild_eq_some.mp hm
      exact hno ((canWrite_entry_iff hk hfull hg.self).mpr hw) (join_protected_inj hprot hjoin)

end

end

def KeepsAccess (host : Host) (cwd : Path) (P Q : FileSystemSandboxPolicy) : Prop :=
  ∀ path, (P.canReadPathWithCwd host path cwd → Q.canReadPathWithCwd host path cwd) ∧
    (P.canWritePathWithCwd host path cwd → Q.canWritePathWithCwd host path cwd)

theorem KeepsAccess.foldl {host : Host} {cwd : Path}
    {step : FileSystemSandboxPolicy → AbsolutePathBuf → FileSystemSandboxPolicy}
    (hstep : ∀ P root, KeepsAccess host cwd P (step P root)) (roots : List AbsolutePathBuf)
    (P : FileSystemSandboxPolicy) : KeepsAccess host cwd P (roots.foldl step P) := by
  refine foldlRecOn (motive := KeepsAccess host cwd P) roots step (fun _ => ⟨id, id⟩) fun Q h root _ path => ?_
  obtain ⟨hread, hwrite⟩ := hstep Q root path
  exact ⟨fun hP => hread ((h path).1 hP), fun hP => hwrite ((h path).2 hP)⟩

theorem restricted_of_resolveAccess {P : FileSystemSandboxPolicy} {host : Host} {path cwd : Path}
    (h : P.canWritePathWithCwd host path cwd = false) : P.kind = .restricted := by
  cases hk : P.kind with
  | restricted => rfl
  | _ =>
    simp [canWritePathWithCwd, resolveAccessWithCwd, hasFullDiskWriteAccess, hk] at h

/-- Granting more roots takes no access away. -/
theorem withAdditionalRoots_keepsAccess (policy : FileSystemSandboxPolicy) (host : Host) {cwd : Path}
    (hcwd : cwd.isAbsolute) (roots : List AbsolutePathBuf) :
    KeepsAccess host cwd policy (policy.withAdditionalReadableRoots host cwd roots) ∧
      KeepsAccess host cwd policy (policy.withAdditionalWritableRoots host cwd roots) := by
  constructor
  · unfold withAdditionalReadableRoots
    split
    · exact fun _ => ⟨id, id⟩
    refine KeepsAccess.foldl (fun P root path => ?_) roots policy
    split
    · exact ⟨id, id⟩
    next hroot =>
      have hroot := Bool.eq_false_of_not_eq_true hroot
      have hk : P.kind = .restricted := by
        cases hk : P.kind with
        | restricted => rfl
        | _ =>
          simp [canReadPathWithCwd, resolveAccessWithCwd, canRead, hk] at hroot
      obtain ⟨target, ht⟩ := exists_resolveCandidatePath host path hcwd
      exact ⟨canRead_extends hk ht (extends_push root .read) (by decide),
        canWrite_extends_read hk hcwd ht (extends_push root .read) hroot⟩
  · refine KeepsAccess.foldl (fun P root path => ?_) roots policy
    split
    · exact ⟨id, id⟩
    next hroot =>
      have hroot := Bool.eq_false_of_not_eq_true hroot
      have hk := restricted_of_resolveAccess hroot
      obtain ⟨target, ht⟩ := exists_resolveCandidatePath host path hcwd
      refine ⟨canRead_extends hk ht (extends_push root .write) (by decide),
        canWrite_extends_write hk ht (extends_push root .write) ?_ hroot⟩
      refine hasFullDiskWriteAccess_mono hk hk (fun s hs => mem_append_left _ hs) fun s hs => ?_
      exact (List.mem_append.mp hs).imp_right fun hs => by rw [List.mem_singleton.mp hs]

theorem withAdditionalRoots_keepsAccess_workDir : KeepsAccess nestedHost workDir.asPath nestedRoots
      (nestedRoots.withAdditionalReadableRoots nestedHost workDir.asPath [nestedGitConfig]) ∧
    KeepsAccess nestedHost workDir.asPath nestedRoots
      (nestedRoots.withAdditionalWritableRoots nestedHost workDir.asPath [nestedGitConfig]) :=
  withAdditionalRoots_keepsAccess nestedRoots nestedHost (Path.isAbsolute_asPath workDir) _

/-! ## Access elsewhere -/

/-- Full-disk write access that only `Q` has lifts the metadata rule from the path. -/
def LiftsProtection (host : Host) (path cwd : Path) (P Q : FileSystemSandboxPolicy) : Prop :=
  P.hasFullDiskWriteAccess = false ∧ Q.hasFullDiskWriteAccess ∧
    P.resolveAccessWithCwd host path cwd = .write ∧ P.isMetadataWriteDenied host path cwd

section

variable {P Q : FileSystemSandboxPolicy} {host : Host} {path cwd : Path} {target : AbsolutePathBuf}

theorem canWrite_eq_iff (hresolve : Q.resolveAccessWithCwd host path cwd = P.resolveAccessWithCwd host path cwd)
    (hdenied : Q.isMetadataWriteDenied host path cwd = P.isMetadataWriteDenied host path cwd)
    (hmono : P.hasFullDiskWriteAccess → Q.hasFullDiskWriteAccess) :
    Q.canWritePathWithCwd host path cwd = P.canWritePathWithCwd host path cwd ↔
      ¬ LiftsProtection host path cwd P Q := by
  rw [Bool.eq_iff_iff, canWrite_iff, canWrite_iff, hresolve, hdenied, LiftsProtection]
  cases hP : P.hasFullDiskWriteAccess with
  | true => simp [hmono hP]
  | false => cases Q.hasFullDiskWriteAccess <;> cases P.isMetadataWriteDenied host path cwd <;> simp

/-- Entries that are pushed one by one, except those that are skipped. -/
theorem exists_foldl_push {α : Type} (skips : FileSystemSandboxPolicy → α → Prop) [∀ P a, Decidable (skips P a)]
    (entry : α → FileSystemSandboxEntry) (as : List α) (P : FileSystemSandboxPolicy) :
    ∃ extra ⊆ as.map entry, as.foldl (fun P a => if skips P a then P else P.push (entry a)) P =
        { P with entries := P.entries ++ extra } ∧
      ∀ a ∈ as, (∀ Q, skips Q a → entry a ∈ Q.entries) → entry a ∈ P.entries ++ extra := by
  induction as generalizing P with
  | nil => exact ⟨[], by simp⟩
  | cons a as ih =>
    rw [foldl_cons]
    split
    next hskips =>
      obtain ⟨extra, hsub, heq, hall⟩ := ih P
      refine ⟨extra, Subset.trans hsub (subset_cons_self _ _), heq, ?_⟩
      exact forall_mem_cons.mpr ⟨fun h => mem_append_left _ (h P hskips), hall⟩
    · obtain ⟨extra, hsub, heq, hall⟩ := ih (P.push (entry a))
      have happend : (P.push (entry a)).entries ++ extra = P.entries ++ entry a :: extra := append_assoc _ _ _
      rw [happend] at hall
      refine ⟨entry a :: extra, cons_subset_cons _ hsub, heq.trans (by rw [happend]; rfl), ?_⟩
      exact forall_mem_cons.mpr ⟨fun _ => mem_append_right _ mem_cons_self, hall⟩

end

/-- Writable roots do not change the access of a path that lies under none of them, unless they complete full-disk
write access and so lift the protection of metadata. -/
theorem withAdditionalWritableRoots_elsewhere {policy : FileSystemSandboxPolicy} (hk : policy.kind = .restricted)
    {host : Host} {cwd path : Path} {target : AbsolutePathBuf}
    (ht : resolveCandidatePath host path cwd = some target) {roots : List AbsolutePathBuf}
    (hout : ∀ root ∈ roots, ¬ target.startsWith root) :
    (policy.withAdditionalWritableRoots host cwd roots).canReadPathWithCwd host path cwd =
      policy.canReadPathWithCwd host path cwd ∧
    ((policy.withAdditionalWritableRoots host cwd roots).canWritePathWithCwd host path cwd =
      policy.canWritePathWithCwd host path cwd ↔
      ¬ LiftsProtection host path cwd policy (policy.withAdditionalWritableRoots host cwd roots)) := by
  obtain ⟨extra, hsub, heq, -⟩ := exists_foldl_push (fun P root => P.canWritePathWithCwd host root.asPath cwd)
    (fun root => ⟨.path root, .write, none⟩) roots policy
  rw [withAdditionalWritableRoots, heq]
  have hext := @extends_append policy host cwd extra
  have hextra : ∀ e ∈ (restricted extra).resolvedEntriesWithCwd host cwd, ¬ target.startsWith e.path := by
    intro e he
    obtain ⟨s, hs, -, hpath⟩ := mem_resolvedEntries.mp he
    obtain ⟨root, hroot, rfl⟩ := List.mem_map.mp (hsub hs)
    rw [← Option.some.inj hpath]
    exact hout root hroot
  have hresolve := resolveAccess_congr (hext.1.trans hk) hk ht fun e hcov => by
    rw [hext.2, mem_append, or_iff_left fun he => hextra e he hcov]
  refine ⟨by rw [canReadPathWithCwd, hresolve]; rfl, canWrite_eq_iff hresolve ?_ ?_⟩
  · exact isMetadataWriteDenied_extends hext ht fun e he _ => hextra e he
  · refine hasFullDiskWriteAccess_mono hk hk (fun s hs => mem_append_left _ hs) fun s hs => ?_
    refine (List.mem_append.mp hs).imp_right fun hs => ?_
    obtain ⟨root, -, rfl⟩ := List.mem_map.mp (hsub hs)
    rfl

theorem withAdditionalWritableRoots_elsewhere_root :
    (nestedRoots.withAdditionalWritableRoots nestedHost workDir.asPath [nestedGitConfig]).canReadPathWithCwd
        nestedHost workFile.asPath workDir.asPath =
      nestedRoots.canReadPathWithCwd nestedHost workFile.asPath workDir.asPath ∧
    (nestedRoots.withAdditionalWritableRoots nestedHost workDir.asPath [nestedGitConfig]).canWritePathWithCwd
        nestedHost workFile.asPath workDir.asPath =
      nestedRoots.canWritePathWithCwd nestedHost workFile.asPath workDir.asPath := by
  have helsewhere := @withAdditionalWritableRoots_elsewhere nestedRoots rfl nestedHost workDir.asPath workFile.asPath
    workFile (resolveCandidatePath_asPath _ _ _) [nestedGitConfig] (by decide)
  refine ⟨helsewhere.1, helsewhere.2.mpr fun hlifts => ?_⟩
  have hfull : (nestedRoots.withAdditionalWritableRoots nestedHost workDir.asPath
      [nestedGitConfig]).hasFullDiskWriteAccess = false := by decide
  exact absurd hlifts.2.1 (by rw [hfull]; decide)

def rootGitConfig : AbsolutePathBuf := ⟨[".git".toList, "config".toList], by decide⟩

def allButWorkDir : FileSystemSandboxPolicy :=
  .restricted [⟨.special .root, .write, none⟩, ⟨.path workDir, .read, none⟩]

/-- Granting the working directory lifts the protection of a git directory elsewhere. -/
theorem withAdditionalWritableRoots_lifts : ¬ rootGitConfig.startsWith workDir ∧
    allButWorkDir.canWritePathWithCwd nestedHost rootGitConfig.asPath workDir.asPath = false ∧
    (allButWorkDir.withAdditionalWritableRoots nestedHost workDir.asPath [workDir]).canWritePathWithCwd nestedHost
      rootGitConfig.asPath workDir.asPath = true := by
  decide

/-! ## Project roots -/

section

variable {host : Host} {cwd : Path}

theorem resolveEntryPath_materializePath (cwd : Option AbsolutePathBuf) (path : FileSystemPath) :
    resolveEntryPath host (materializePath host cwd path) cwd = resolveEntryPath host path cwd := by
  unfold materializePath
  split
  · split
    next hpath => exact hpath.symm
    next => rfl
  · split <;> rfl
  · rfl

theorem resolvedEntries_materialize (policy : FileSystemSandboxPolicy) :
    (policy.materializeProjectRootsWithCwd host cwd).resolvedEntriesWithCwd host cwd =
      policy.resolvedEntriesWithCwd host cwd := by
  simp [resolvedEntriesWithCwd, materializeProjectRootsWithCwd, resolveEntryPath_materializePath]

/-- What an entry's path stands for at a working directory: project roots are paths at or under it. -/
def standsFor (host : Host) (cwd : Option AbsolutePathBuf) : FileSystemPath → FileSystemPath
  | .special (.projectRoots subpath) =>
    match cwd, subpath with
    | some cwd, some subpath => .path (.resolvePathAgainstBase host.process subpath cwd)
    | some cwd, none => .path cwd
    | none, subpath => .special (.projectRoots subpath)
  | path => path

/-- The entry takes nothing from write access to the root: it grants writing itself, or it only reads and another entry
grants writing for the same target once both paths are read as `reading` says. -/
def Harmless (reading : FileSystemPath → FileSystemPath) (entries : List FileSystemSandboxEntry)
    (s : FileSystemSandboxEntry) : Prop :=
  s.access = .write ∨
    match s.path with
    | .globPattern _ => False
    | .special .root => s.access ≠ .deny
    | .special .minimal | .special (.unknown _ _) => True
    | _ => s.access = .read ∧
      ∃ o ∈ entries, o.access = .write ∧ fileSystemPathsShareTarget (reading o.path) (reading s.path)

/-- The root can be written, and no entry takes anything from that once project roots are read as paths, but some
entry does as long as they are not. -/
structure Unlocks (host : Host) (cwd : Option AbsolutePathBuf) (entries : List FileSystemSandboxEntry) : Prop where
  root : ∃ s ∈ entries, s.path = .special .root ∧ s.access = .write
  after : ∀ s ∈ entries, Harmless (standsFor host cwd) entries s
  before : ∃ s ∈ entries, ¬ Harmless id entries s

/-- The path lies in a metadata directory of the write entry that governs it, the first write entry with one around
the path. -/
def InProtectedMetadata (host : Host) (cwd path : Path) (policy : FileSystemSandboxPolicy) : Prop :=
  ∃ target e, resolveCandidatePath host path cwd = some target ∧
    Governs (policy.resolvedEntriesWithCwd host cwd) target e ∧ e.access = .write ∧
    ∃ m, metadataChildOfWritableRoot host policy target cwd = some (e.path.join host.process m, m)

theorem shareTarget_self (path : FileSystemPath) : fileSystemPathsShareTarget path path := by
  cases path with
  | special value => cases value <;> simp [fileSystemPathsShareTarget, specialPathsShareTarget]
  | _ => simp [fileSystemPathsShareTarget]

/-- Paths that share their target go on sharing it. -/
theorem shareTarget_standsFor {left right : FileSystemPath} (cwd : Option AbsolutePathBuf)
    (h : fileSystemPathsShareTarget left right) :
    fileSystemPathsShareTarget (standsFor host cwd left) (standsFor host cwd right) := by
  by_cases heq : left = right
  · rw [heq]
    exact shareTarget_self _
  · -- otherwise one of them is an absolute path and the other the root or `/tmp`
    cases left with
    | path p =>
      cases right with
      | path q => exact h
      | globPattern _ => cases h
      | special value => cases value <;> first | exact h | cases h
    | globPattern pattern =>
      cases right with
      | globPattern _ => exact absurd (congrArg _ (of_decide_eq_true h)) heq
      | _ => cases h
    | special value =>
      cases right with
      | path q => cases value <;> first | exact h | cases h
      | globPattern _ => cases h
      | special other =>
        cases value <;> cases other <;> simp_all [fileSystemPathsShareTarget, specialPathsShareTarget]

theorem Harmless.standsFor {entries : List FileSystemSandboxEntry} {s : FileSystemSandboxEntry}
    (cwd : Option AbsolutePathBuf) (h : Harmless id entries s) : Harmless (standsFor host cwd) entries s := by
  refine h.imp_right fun hs => ?_
  split at hs
  · exact hs
  · exact hs
  · exact hs
  · exact hs
  · obtain ⟨hread, o, ho, hw, hshare⟩ := hs
    exact ⟨hread, o, ho, hw, shareTarget_standsFor cwd hshare⟩

theorem narrowsWrite_eq_false_iff {policy : FileSystemSandboxPolicy} {s : FileSystemSandboxEntry} :
    policy.narrowsWrite s = false ↔ Harmless id policy.entries s := by
  by_cases hw : s.access = .write
  · simp [narrowsWrite, Harmless, hw, FileSystemAccessMode.canWrite]
  · have hoverride := @hasSameTargetWriteOverride_iff policy s
    rw [narrowsWrite, if_neg (by simp [FileSystemAccessMode.canWrite, hw]), Harmless, or_iff_right hw]
    obtain ⟨path, access, missing⟩ := s
    cases path with
    | path p => simpa using hoverride
    | globPattern pattern => simp
    | special value =>
      cases value with
      | root | minimal | unknown _ _ => simp
      | _ => simpa using hoverride

theorem exists_materializePath_globPattern (host : Host) (cwd : Option AbsolutePathBuf) (pattern : Str) :
    ∃ other, materializePath host cwd (.globPattern pattern) = .globPattern other := by
  cases cwd with
  | none => exact ⟨pattern, rfl⟩
  | some cwd => cases h : parseProjectRootsGlobPattern pattern <;> simp [materializePath, h]

/-- Project roots become the paths they stand for, and other paths stay; patterns share no target with either. -/
theorem shareTarget_materializePath {cwd : Option AbsolutePathBuf} (left : FileSystemPath) {right : FileSystemPath}
    (hright : ∀ pattern, right ≠ .globPattern pattern) :
    fileSystemPathsShareTarget (materializePath host cwd left) (materializePath host cwd right) =
      fileSystemPathsShareTarget (standsFor host cwd left) (standsFor host cwd right) := by
  have hsame : ∀ path : FileSystemPath, (∀ pattern, path ≠ .globPattern pattern) →
      materializePath host cwd path = standsFor host cwd path := by
    intro path hpath
    cases path with
    | path p => rfl
    | globPattern pattern => exact absurd rfl (hpath pattern)
    | special value =>
      cases value with
      | projectRoots subpath => cases cwd <;> cases subpath <;> rfl
      | _ => rfl
  have hglob : ∀ pattern, fileSystemPathsShareTarget (.globPattern pattern) (standsFor host cwd right) = false := by
    intro pattern
    cases right with
    | path p => rfl
    | globPattern other => exact absurd rfl (hright other)
    | special value =>
      cases value with
      | projectRoots subpath => cases cwd <;> cases subpath <;> rfl
      | _ => rfl
  rw [hsame right hright]
  cases left with
  | path p => rfl
  | special value => rw [hsame (.special value) (fun _ => nofun)]
  | globPattern pattern =>
    obtain ⟨other, hother⟩ := exists_materializePath_globPattern host cwd pattern
    rw [hother]
    exact (hglob other).trans (hglob pattern).symm

theorem narrowsWrite_materialize_iff {policy : FileSystemSandboxPolicy} {s : FileSystemSandboxEntry} :
    (policy.materializeProjectRootsWithCwd host cwd).narrowsWrite
        { s with path := materializePath host (AbsolutePathBuf.fromAbsolutePath host.process cwd) s.path } = false ↔
      Harmless (standsFor host (AbsolutePathBuf.fromAbsolutePath host.process cwd)) policy.entries s := by
  rw [narrowsWrite_eq_false_iff]
  have hentries : (policy.materializeProjectRootsWithCwd host cwd).entries = policy.entries.map fun entry =>
    { entry with path := materializePath host (AbsolutePathBuf.fromAbsolutePath host.process cwd) entry.path } := rfl
  rw [hentries]
  generalize AbsolutePathBuf.fromAbsolutePath host.process cwd = base
  have hshare : (∀ pattern, s.path ≠ .globPattern pattern) →
      ((∃ o ∈ policy.entries.map fun entry => { entry with path := materializePath host base entry.path },
        o.access = .write ∧ fileSystemPathsShareTarget o.path (materializePath host base s.path)) ↔
      ∃ o ∈ policy.entries, o.access = .write ∧
        fileSystemPathsShareTarget (standsFor host base o.path) (standsFor host base s.path)) := by
    intro hs
    simp [shareTarget_materializePath _ hs]
  obtain ⟨path, access, missing⟩ := s
  cases path with
  | path p => exact or_congr_right (and_congr_right fun _ => hshare (fun _ => nofun))
  | globPattern pattern =>
    obtain ⟨other, hother⟩ := exists_materializePath_globPattern host base pattern
    rw [Harmless, hother]
    exact Iff.rfl
  | special value =>
    have hshare := and_congr_right (a := access = .read) fun _ => hshare (fun _ => nofun)
    cases value with
    | root | minimal | unknown _ _ => exact Iff.rfl
    | tmpdir | slashTmp => exact or_congr_right hshare
    | projectRoots subpath =>
      cases base with
      | none => exact or_congr_right hshare
      | some cwd => cases subpath <;> exact or_congr_right hshare

theorem materializePath_eq_root {base : Option AbsolutePathBuf} {path : FileSystemPath} :
    materializePath host base path = .special .root ↔ path = .special .root := by
  cases path with
  | path p => exact Iff.rfl
  | globPattern pattern =>
    obtain ⟨other, hother⟩ := exists_materializePath_globPattern host base pattern
    simp [hother]
  | special value =>
    cases value with
    | projectRoots subpath => cases base <;> cases subpath <;> exact ⟨nofun, nofun⟩
    | _ => exact Iff.rfl

theorem hasFullDiskWriteAccess_iff_harmless {policy : FileSystemSandboxPolicy} (hk : policy.kind = .restricted) :
    policy.hasFullDiskWriteAccess ↔ (∃ s ∈ policy.entries, s.path = .special .root ∧ s.access = .write) ∧
      ∀ s ∈ policy.entries, Harmless id policy.entries s := by
  simp only [hasFullDiskWriteAccess_iff hk, narrowsWrite_eq_false_iff]

theorem hasFullDiskWriteAccess_materialize_iff {policy : FileSystemSandboxPolicy} (hk : policy.kind = .restricted) :
    (policy.materializeProjectRootsWithCwd host cwd).hasFullDiskWriteAccess ↔
      (∃ s ∈ policy.entries, s.path = .special .root ∧ s.access = .write) ∧
      ∀ s ∈ policy.entries,
        Harmless (standsFor host (AbsolutePathBuf.fromAbsolutePath host.process cwd)) policy.entries s := by
  have hkind : (policy.materializeProjectRootsWithCwd host cwd).kind = .restricted := hk
  rw [hasFullDiskWriteAccess_iff hkind]
  refine and_congr ?_ ?_
  · simp [materializeProjectRootsWithCwd, materializePath_eq_root]
  · refine forall_mem_map.trans (forall₂_congr fun s _ => narrowsWrite_materialize_iff)

/-- Materializing does not end full-disk write access. -/
theorem hasFullDiskWriteAccess_materialize {policy : FileSystemSandboxPolicy} (h : policy.hasFullDiskWriteAccess) :
    (policy.materializeProjectRootsWithCwd host cwd).hasFullDiskWriteAccess := by
  cases hk : policy.kind with
  | restricted =>
    obtain ⟨hroot, hharmless⟩ := (hasFullDiskWriteAccess_iff_harmless hk).mp h
    exact (hasFullDiskWriteAccess_materialize_iff hk).mpr ⟨hroot, fun s hs => (hharmless s hs).standsFor _⟩
  | _ => simp [hasFullDiskWriteAccess, materializeProjectRootsWithCwd, hk]

theorem liftsProtection_materialize_iff {policy : FileSystemSandboxPolicy} {path : Path} :
    LiftsProtection host path cwd policy (policy.materializeProjectRootsWithCwd host cwd) ↔
      policy.kind = .restricted ∧
      Unlocks host (AbsolutePathBuf.fromAbsolutePath host.process cwd) policy.entries ∧
      InProtectedMetadata host cwd path policy := by
  constructor
  · rintro ⟨hnot, hfull, hwrite, hdenied⟩
    have hk := restricted_of_not_full hnot
    obtain ⟨hroot, hafter⟩ := (hasFullDiskWriteAccess_materialize_iff hk).mp hfull
    refine ⟨hk, ⟨hroot, hafter, ?_⟩, ?_⟩
    · by_contra hall
      push Not at hall
      rw [(hasFullDiskWriteAccess_iff_harmless hk).mpr ⟨hroot, hall⟩] at hnot
      cases hnot
    · cases ht : resolveCandidatePath host path cwd with
      | none => simp [resolveAccessWithCwd, hk, ht] at hwrite
      | some target =>
        obtain ⟨e, he, hew⟩ := (resolveAccess_eq_iff hk ht (by decide)).mp hwrite
        exact ⟨target, e, ht, he, hew, (isMetadataWriteDenied_iff_governs hk ht he hew).mp hdenied⟩
  · rintro ⟨hk, ⟨hroot, hafter, s, hs, hharm⟩, target, e, ht, he, hew, hchild⟩
    refine ⟨?_, (hasFullDiskWriteAccess_materialize_iff hk).mpr ⟨hroot, hafter⟩,
      (resolveAccess_eq_iff hk ht (by decide)).mpr ⟨e, he, hew⟩,
      (isMetadataWriteDenied_iff_governs hk ht he hew).mpr hchild⟩
    refine Bool.eq_false_of_not_eq_true fun hfull => hharm ?_
    exact ((hasFullDiskWriteAccess_iff_harmless hk).mp hfull).2 s hs

end

/-- Materializing the project roots at a working directory changes no access there, except that it opens protected
metadata where only the paths the project roots stand for complete full-disk write access. -/
theorem materializeProjectRoots_access (policy : FileSystemSandboxPolicy) (host : Host) (cwd path : Path) :
    (policy.materializeProjectRootsWithCwd host cwd).canReadPathWithCwd host path cwd =
      policy.canReadPathWithCwd host path cwd ∧
    ((policy.materializeProjectRootsWithCwd host cwd).canWritePathWithCwd host path cwd =
      policy.canWritePathWithCwd host path cwd ↔
      ¬ (policy.kind = .restricted ∧
        Unlocks host (AbsolutePathBuf.fromAbsolutePath host.process cwd) policy.entries ∧
        InProtectedMetadata host cwd path policy)) := by
  have hresolved := @resolvedEntries_materialize host cwd policy
  have hkind : (policy.materializeProjectRootsWithCwd host cwd).kind = policy.kind := rfl
  have hresolve : (policy.materializeProjectRootsWithCwd host cwd).resolveAccessWithCwd host path cwd =
      policy.resolveAccessWithCwd host path cwd := by
    simp [resolveAccessWithCwd, hkind, hresolved]
  rw [← liftsProtection_materialize_iff]
  refine ⟨by rw [canReadPathWithCwd, hresolve]; rfl, canWrite_eq_iff hresolve ?_ ?_⟩
  · simp [isMetadataWriteDenied, metadataChildOfWritableRoot, hasExplicitWriteEntryForMetadataPath, hkind, hresolved]
  · exact hasFullDiskWriteAccess_materialize

def namedTwice : FileSystemSandboxPolicy :=
  .restricted [⟨.special .root, .write, none⟩, ⟨.special (.projectRoots none), .read, none⟩,
    ⟨.path workDir, .write, none⟩]

/-- Only when the two names are one path, the policy counts as one with full-disk write access. -/
theorem materializeProjectRoots_lifts :
    namedTwice.canWritePathWithCwd nestedHost rootGitConfig.asPath workDir.asPath = false ∧
    (namedTwice.materializeProjectRootsWithCwd nestedHost workDir.asPath).canWritePathWithCwd nestedHost
      rootGitConfig.asPath workDir.asPath = true := by
  decide

/-! ## Denials -/

section

variable {P Q : FileSystemSandboxPolicy} {host : Host} {path cwd : Path} {target : AbsolutePathBuf}

/-- The denials of the other policy that are missing are appended. -/
theorem exists_preserveDeny (hk : P.kind = .restricted) (existing : FileSystemSandboxPolicy) :
    ∃ extra, P.preserveDenyReadRestrictionsFrom existing = { P with entries := P.entries ++ extra } ∧
      (∀ s ∈ extra, s.access = .deny) ∧
      ∀ s ∈ existing.entries, s.access = .deny → s ∈ P.entries ++ extra := by
  obtain ⟨extra, hsub, heq, hall⟩ := exists_foldl_push (fun P entry => entry ∈ P.entries) id
    (existing.entries.filter fun entry => entry.access = .deny) P
  have hextra : ∀ s ∈ extra, s.access = .deny := by
    intro s hs
    have hmem := hsub hs
    rw [map_id] at hmem
    exact of_decide_eq_true (mem_filter.mp hmem).2
  refine ⟨extra, ?_, hextra, fun s hs hacc => hall s (mem_filter.mpr ⟨hs, decide_eq_true hacc⟩) fun _ h => h⟩
  rw [← heq, preserveDenyReadRestrictionsFrom]
  simp [hk]

/-- What is not denied with more denials was allowed as it is without them. -/
theorem access_of_extends_deny {extra : List FileSystemSandboxEntry} (hk : P.kind = .restricted)
    (hQ : Q = { P with entries := P.entries ++ extra }) (hdeny : ∀ s ∈ extra, s.access = .deny)
    (ht : resolveCandidatePath host path cwd = some target) :
    (Q.canReadPathWithCwd host path cwd → P.canReadPathWithCwd host path cwd) ∧
    (Q.canWritePathWithCwd host path cwd → P.canWritePathWithCwd host path cwd) := by
  have hext := @extends_append P host cwd extra
  rw [← hQ] at hext
  have hkQ := hext.1.trans hk
  have hextra : ∀ e ∈ (restricted extra).resolvedEntriesWithCwd host cwd, e.access = .deny := by
    intro e he
    obtain ⟨s, hs, hacc, -⟩ := mem_resolvedEntries.mp he
    rw [← hacc]
    exact hdeny s hs
  have hgoverns : ∀ e, Governs (Q.resolvedEntriesWithCwd host cwd) target e → e.access ≠ .deny →
      Governs (P.resolvedEntriesWithCwd host cwd) target e := by
    intro e hg hacc
    have hmem := hg.mem
    rw [hext.2, mem_append] at hmem
    refine hg.of_covering (hmem.resolve_right fun he => hacc (hextra e he)) fun j hj _ => ?_
    rw [hext.2]
    exact mem_append_left _ hj
  constructor
  · intro h
    obtain ⟨e, hg, hacc⟩ := (canRead_iff_governs hkQ ht).mp h
    exact (canRead_iff_governs hk ht).mpr ⟨e, hgoverns e hg hacc, hacc⟩
  · intro h
    obtain ⟨hwrite, hmeta⟩ := canWrite_iff.mp h
    obtain ⟨e, hg, hw⟩ := (resolveAccess_eq_iff hkQ ht (by decide)).mp hwrite
    have hresolve := (resolveAccess_eq_iff hk ht (by decide)).mpr ⟨e, hgoverns e hg (by rw [hw]; decide), hw⟩
    refine canWrite_iff.mpr ⟨hresolve, hmeta.imp ?_ ?_⟩
    · refine hasFullDiskWriteAccess_of_extended hk hkQ ?_ ?_
      · rw [hQ]
        exact fun s hs => mem_append_left _ hs
      · rw [hQ]
        refine fun s hs hw => (mem_append.mp hs).resolve_right fun hs => ?_
        rw [hdeny s hs] at hw
        cases hw
    · rw [isMetadataWriteDenied_extends hext ht fun e he hw => by rw [hextra e he] at hw; cases hw]
      exact id

/-- A denial that is an entry holds where no entry is more specific. -/
theorem resolveAccess_deny_or (hk : Q.kind = .restricted) (ht : resolveCandidatePath host path cwd = some target)
    {denied : AbsolutePathBuf} (hmem : ⟨denied, .deny⟩ ∈ Q.resolvedEntriesWithCwd host cwd)
    (hcov : target.startsWith denied) :
    Q.resolveAccessWithCwd host path cwd = .deny ∨
      ∃ e ∈ Q.resolvedEntriesWithCwd host cwd, e.access ≠ .deny ∧ target.startsWith e.path ∧
        denied.components.length < e.path.components.length := by
  obtain ⟨g, hg⟩ := exists_governs hmem hcov
  by_cases hacc : g.access = .deny
  · exact .inl ((resolveAccess_of_governs hk ht hg).trans hacc)
  · refine .inr ⟨g, hg.mem, hacc, hg.covers, Nat.lt_of_le_of_ne (hg.longest _ hmem hcov) fun hlen => ?_⟩
    have hkey := (hg.key_prefix hmem hcov).eq_of_length hlen
    exact hacc (le_antisymm (le_deny _) (hg.greatest _ hmem hkey))

end

/-- Taking over the denials of another policy gives no access, and each of these denials holds where the policy had
no more specific entry. -/
theorem preserveDenyReadRestrictions_access {policy : FileSystemSandboxPolicy} (hkind : policy.kind ≠ .externalSandbox)
    (existing : FileSystemSandboxPolicy) {host : Host} {cwd path : Path} (hcwd : cwd.isAbsolute)
    {target : AbsolutePathBuf} (ht : resolveCandidatePath host path cwd = some target) :
    ((policy.preserveDenyReadRestrictionsFrom existing).canReadPathWithCwd host path cwd = true →
      policy.canReadPathWithCwd host path cwd = true) ∧
    ((policy.preserveDenyReadRestrictionsFrom existing).canWritePathWithCwd host path cwd = true →
      policy.canWritePathWithCwd host path cwd = true) ∧
    ∀ denied, ⟨denied, .deny⟩ ∈ existing.resolvedEntriesWithCwd host cwd → target.startsWith denied →
      (policy.preserveDenyReadRestrictionsFrom existing).resolveAccessWithCwd host path cwd = .deny ∨
        ∃ e ∈ policy.resolvedEntriesWithCwd host cwd, target.startsWith e.path ∧
          denied.components.length < e.path.components.length := by
  -- the denials that hold under a restricted policy
  have hdenials : ∀ P : FileSystemSandboxPolicy, P.kind = .restricted →
      ∀ denied, ⟨denied, .deny⟩ ∈ existing.resolvedEntriesWithCwd host cwd → target.startsWith denied →
      (P.preserveDenyReadRestrictionsFrom existing).resolveAccessWithCwd host path cwd = .deny ∨
        ∃ e ∈ P.resolvedEntriesWithCwd host cwd, target.startsWith e.path ∧
          denied.components.length < e.path.components.length := by
    intro P hk denied hmem hcov
    obtain ⟨extra, heq, hextra, hall⟩ := exists_preserveDeny hk existing
    obtain ⟨d, hd, hacc, hpath⟩ := mem_resolvedEntries.mp hmem
    rw [heq]
    have hkQ : ({ P with entries := P.entries ++ extra } : FileSystemSandboxPolicy).kind = .restricted := hk
    refine (resolveAccess_deny_or hkQ ht (mem_resolvedEntries.mpr ⟨d, hall d hd hacc, hacc, hpath⟩) hcov).imp_right ?_
    rintro ⟨e, he, hne, hrest⟩
    obtain ⟨s, hs, hsacc, hspath⟩ := mem_resolvedEntries.mp he
    have hs := (List.mem_append.mp hs).resolve_right fun hs => hne (hsacc.symm.trans (hextra s hs))
    exact ⟨e, mem_resolvedEntries.mpr ⟨s, hs, hsacc, hspath⟩, hrest⟩
  cases hk : policy.kind with
  | externalSandbox => exact absurd hk hkind
  | restricted =>
    obtain ⟨extra, heq, hextra, -⟩ := exists_preserveDeny hk existing
    obtain ⟨hread, hwrite⟩ := access_of_extends_deny hk heq hextra ht
    exact ⟨hread, hwrite, hdenials policy hk⟩
  | unrestricted =>
    refine ⟨fun _ => ?_, fun _ => ?_, fun denied hmem hcov => .inl ?_⟩
    · simp [canReadPathWithCwd, resolveAccessWithCwd, hk]
    · simp [canWrite_iff, resolveAccessWithCwd, hasFullDiskWriteAccess, hk]
    · -- the root entry that takes the place of the policy is more specific than no denial
      obtain ⟨d, hd, hacc, -⟩ := mem_resolvedEntries.mp hmem
      have heq : policy.preserveDenyReadRestrictionsFrom existing =
          (restricted [⟨.special .root, .write, none⟩]).preserveDenyReadRestrictionsFrom existing := by
        have hany : (existing.entries.any fun entry => entry.access = .deny) :=
          List.any_eq_true.mpr ⟨d, hd, decide_eq_true hacc⟩
        simp [preserveDenyReadRestrictionsFrom, hk, hany]
      rw [heq]
      refine (hdenials _ rfl denied hmem hcov).resolve_right ?_
      rintro ⟨e, he, -, hlen⟩
      obtain ⟨s, hs, -, hpath⟩ := mem_resolvedEntries.mp he
      obtain ⟨c, hc⟩ := AbsolutePathBuf.exists_fromAbsolutePath host.process hcwd
      rw [List.mem_singleton.mp hs, hc] at hpath
      rw [← Option.some.inj hpath] at hlen
      exact Nat.not_lt_zero _ hlen

theorem preserveDenyReadRestrictions_access_workFile : (unrestricted.preserveDenyReadRestrictionsFrom
      (.restricted [⟨.path workDir, .deny, none⟩])).resolveAccessWithCwd nestedHost workFile.asPath workDir.asPath =
        .deny := by
  have hmem : ⟨workDir, .deny⟩ ∈ (restricted [⟨.path workDir, .deny, none⟩]).resolvedEntriesWithCwd nestedHost
        workDir.asPath := by decide
  have hkind : unrestricted.kind ≠ .externalSandbox := by decide
  have haccess := (preserveDenyReadRestrictions_access hkind (.restricted [⟨.path workDir, .deny, none⟩])
    (Path.isAbsolute_asPath workDir) (resolveCandidatePath_asPath nestedHost workFile workDir.asPath)).2.2 workDir hmem
    (by decide)
  exact haccess.resolve_right (by simp [unrestricted, resolvedEntriesWithCwd])

end Dcode.Permissions
