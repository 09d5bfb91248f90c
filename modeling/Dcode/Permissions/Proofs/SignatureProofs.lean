import Dcode.Permissions.Legacy
import Dcode.Permissions.Proofs.FullDiskProofs
import Dcode.Permissions.Proofs.WritableRootsProofs

/-!
# What a semantic signature determines

Policies with equal signatures agree on reading. On writing they agree except where the directory of a `.git`
pointer file is read-only by default under one and by an entry under the other, and where full-disk write access
hides a `/tmp` entry.
-/

namespace Dcode.Permissions

open List FileSystemSandboxPolicy AbsolutePathBuf

/-! ## Equal signatures -/

theorem mem_destutter_ne {α : Type} [DecidableEq α] {l : List α} {x : α} : x ∈ l.destutter (· ≠ ·) ↔ x ∈ l := by
  have hfrom : ∀ (l : List α) (a : α), x ∈ l.destutter' (· ≠ ·) a ↔ x = a ∨ x ∈ l := by
    intro l
    induction l with
    | nil => simp
    | cons b l ih =>
      intro a
      by_cases hab : a = b
      · rw [destutter'_cons_neg _ (by simpa using hab), ih, mem_cons, hab]
        tauto
      · rw [destutter'_cons_pos _ hab, mem_cons, ih, mem_cons]
  cases l with
  | nil => simp
  | cons a l => rw [destutter_cons', hfrom, mem_cons]

theorem mem_sortedAbsolutePaths {paths : List AbsolutePathBuf} {path : AbsolutePathBuf} :
    path ∈ sortedAbsolutePaths paths ↔ path ∈ paths :=
  mem_insertionSort _

theorem mem_sortedWritableRoots {roots : List WritableRoot} {r : WritableRoot} :
    r ∈ sortedWritableRoots roots ↔ ∃ s ∈ roots, s.sorted = r := by
  rw [sortedWritableRoots, mem_insertionSort, mem_map]

/-- What a writable root says, whatever the order of its lists. -/
theorem mem_of_sorted_eq {r s : WritableRoot} (h : r.sorted = s.sorted) :
    r.root = s.root ∧ (∀ path, path ∈ r.readOnlySubpaths ↔ path ∈ s.readOnlySubpaths) ∧
      ∀ m, m ∈ r.protectedMetadataNames ↔ m ∈ s.protectedMetadataNames := by
  obtain ⟨hroot, hsub, hnames⟩ := WritableRoot.mk.inj h
  refine ⟨hroot, fun path => ?_, fun m => ?_⟩
  · rw [← mem_sortedAbsolutePaths, hsub, mem_sortedAbsolutePaths]
  · rw [← mem_insertionSort (· ≤ ·), ← mem_destutter_ne, hnames, mem_destutter_ne, mem_insertionSort]

structure SameSignature (host : Host) (cwd : Path) (A B : FileSystemSandboxPolicy) : Prop where
  fullRead : A.hasFullDiskReadAccess = B.hasFullDiskReadAccess
  fullWrite : A.hasFullDiskWriteAccess = B.hasFullDiskWriteAccess
  readable : ∀ path, path ∈ A.getReadableRootsWithCwd host cwd ↔ path ∈ B.getReadableRootsWithCwd host cwd
  unreadable : ∀ path, path ∈ A.getUnreadableRootsWithCwd host cwd ↔ path ∈ B.getUnreadableRootsWithCwd host cwd
  writable : sortedWritableRoots (A.getWritableRootsWithCwd host cwd) =
    sortedWritableRoots (B.getWritableRootsWithCwd host cwd)

namespace SameSignature

variable {host : Host} {cwd : Path} {A B : FileSystemSandboxPolicy}

theorem of_eq (h : A.semanticSignature host cwd = B.semanticSignature host cwd) : SameSignature host cwd A B := by
  obtain ⟨hread, hwrite, -, hreadable, hwritable, hunreadable, -⟩ := FileSystemSemanticSignature.mk.inj h
  refine ⟨hread, hwrite, fun path => ?_, fun path => ?_, hwritable⟩
  · rw [← mem_sortedAbsolutePaths, hreadable, mem_sortedAbsolutePaths]
  · rw [← mem_sortedAbsolutePaths, hunreadable, mem_sortedAbsolutePaths]

theorem symm (h : SameSignature host cwd A B) : SameSignature host cwd B A :=
  ⟨h.fullRead.symm, h.fullWrite.symm, fun path => (h.readable path).symm, fun path => (h.unreadable path).symm,
    h.writable.symm⟩

variable (h : SameSignature host cwd A B) (hs : host.SymlinkFree)

include h hs

theorem writableRoot (hfull : A.hasFullDiskWriteAccess = false) {root : AbsolutePathBuf}
    (hroot : WriteRoot (A.resolvedEntriesWithCwd host cwd) root) :
    WriteRoot (B.resolvedEntriesWithCwd host cwd) root ∧
      (∀ path, path ∈ (A.writableRootFor host cwd root).readOnlySubpaths ↔
        path ∈ (B.writableRootFor host cwd root).readOnlySubpaths) ∧
      ∀ m, m ∈ (A.writableRootFor host cwd root).protectedMetadataNames ↔
        m ∈ (B.writableRootFor host cwd root).protectedMetadataNames := by
  have hmem : A.writableRootFor host cwd root ∈ A.getWritableRootsWithCwd host cwd :=
    (mem_getWritableRootsWithCwd hs).mpr ⟨hfull, hroot, rfl⟩
  have hsorted := mem_sortedWritableRoots.mpr ⟨_, hmem, rfl⟩
  rw [h.writable] at hsorted
  obtain ⟨r, hr, heq⟩ := mem_sortedWritableRoots.mp hsorted
  obtain ⟨-, hrroot, hrfor⟩ := (mem_getWritableRootsWithCwd hs).mp hr
  obtain ⟨hpath, hsub, hnames⟩ := mem_of_sorted_eq heq
  rw [hpath] at hrroot hrfor
  rw [hrfor] at hsub hnames
  exact ⟨hrroot, fun path => (hsub path).symm, fun m => (hnames m).symm⟩

end SameSignature

/-! ## Reading -/

section

variable {policy : FileSystemSandboxPolicy} {host : Host} {cwd path : Path} {c target : AbsolutePathBuf}

theorem restricted_of_not_fullRead (h : policy.hasFullDiskReadAccess = false) : policy.kind = .restricted := by
  unfold hasFullDiskReadAccess at h
  split at h
  next => cases h
  next => cases h
  next hk => exact hk

theorem mem_getReadableRootsWithCwd (hs : host.SymlinkFree) (hfull : policy.hasFullDiskReadAccess = false) :
    target ∈ policy.getReadableRootsWithCwd host cwd ↔
      ∃ e, Governs (policy.resolvedEntriesWithCwd host cwd) target e ∧ e.path = target ∧ e.access ≠ .deny := by
  have hk := restricted_of_not_fullRead hfull
  rw [getReadableRootsWithCwd, hfull, if_neg (by simp), mem_dedupAbsolutePaths hs, mem_map]
  constructor
  · rintro ⟨e, he, rfl⟩
    obtain ⟨hmem, hread⟩ := mem_filter.mp he
    obtain ⟨-, hcan⟩ := Bool.and_eq_true_iff.mp hread
    obtain ⟨g, hg, hgr⟩ := (canRead_iff_governs hk (resolveCandidatePath_asPath host e.path cwd)).mp hcan
    have hlen := hg.longest e hmem (prefix_refl _)
    exact ⟨g, hg, eq_of_components (hg.covers.eq_of_length_le hlen), hgr⟩
  · rintro ⟨e, hg, rfl, hr⟩
    refine ⟨e, mem_filter.mpr ⟨hg.mem, ?_⟩, rfl⟩
    have hcan := (canRead_iff_governs hk (resolveCandidatePath_asPath host e.path cwd)).mpr ⟨e, hg, hr⟩
    simpa [hcan] using hr

theorem mem_getUnreadableRootsWithCwd (hs : host.SymlinkFree) (hk : policy.kind = .restricted)
    (hcwd : fromAbsolutePath host.process cwd = some c) :
    target ∈ policy.getUnreadableRootsWithCwd host cwd ↔
      Governs (policy.resolvedEntriesWithCwd host cwd) target ⟨target, .deny⟩ ∧ target ≠ .root := by
  rw [getUnreadableRootsWithCwd, if_neg (by simp [hk]), mem_dedupAbsolutePaths hs, mem_map, hcwd]
  constructor
  · rintro ⟨e, he, rfl⟩
    obtain ⟨hmem, hdeny⟩ := mem_filter.mp he
    obtain ⟨hand, hroot⟩ := Bool.and_eq_true_iff.mp hdeny
    have hacc : e.access = .deny := of_decide_eq_true (Bool.and_eq_true_iff.mp hand).1
    have heq : e = ⟨e.path, .deny⟩ := ResolvedFileSystemEntry.ext rfl hacc
    refine ⟨?_, fun h => ?_⟩
    · -- no entry comes before one that denies its own path
      refine ⟨heq ▸ hmem, prefix_refl _, fun j _ hc => hc.length_le, fun j _ _ => ?_⟩
      exact j.access.le_deny
    · simp [absoluteRootPathForCwd, h] at hroot
  · rintro ⟨hg, hne⟩
    refine ⟨⟨target, .deny⟩, mem_filter.mpr ⟨hg.mem, ?_⟩, rfl⟩
    have hres := resolveAccess_of_governs hk (resolveCandidatePath_asPath host target cwd) hg
    simp [canReadPathWithCwd, hres, FileSystemAccessMode.canRead, absoluteRootPathForCwd, Ne.symm hne]

theorem SameSignature.canRead {A B : FileSystemSandboxPolicy} (h : SameSignature host cwd A B)
    (hs : host.SymlinkFree) (hcwd : fromAbsolutePath host.process cwd = some c)
    (ht : resolveCandidatePath host path cwd = some target)
    (hcan : A.canReadPathWithCwd host path cwd) : B.canReadPathWithCwd host path cwd := by
  cases hfullB : B.hasFullDiskReadAccess with
  | true => exact canRead_of_hasFullDiskReadAccess hcwd ht hfullB
  | false =>
    have hfullA := h.fullRead.trans hfullB
    have hkA := restricted_of_not_fullRead hfullA
    have hkB := restricted_of_not_fullRead hfullB
    obtain ⟨e, he, her⟩ := (canRead_iff_governs hkA ht).mp hcan
    -- the governing entry of `A` is a readable root, so `B` has an entry there too
    have hreadA := (mem_getReadableRootsWithCwd hs hfullA).mpr ⟨e, he.self, rfl, her⟩
    obtain ⟨f, hf, hfpath, hfr⟩ := (mem_getReadableRootsWithCwd hs hfullB).mp ((h.readable _).mp hreadA)
    have hcov : f.path.components <+: target.components := hfpath ▸ he.covers
    obtain ⟨g, hg⟩ := exists_governs hf.mem hcov
    refine (canRead_iff_governs hkB ht).mpr ⟨g, hg, ?_⟩
    intro hgd
    have hup : g.path.startsWith e.path := hfpath ▸ hg.key_prefix hf.mem hcov
    have hgeq : g = ⟨g.path, .deny⟩ := ResolvedFileSystemEntry.ext rfl hgd
    have hdeny : Governs (B.resolvedEntriesWithCwd host cwd) g.path ⟨g.path, .deny⟩ := hgeq ▸ hg.self
    -- a denied path further down would be an unreadable root of both
    have hdown : e.path.startsWith g.path := by
      by_cases hroot : g.path = .root
      · rw [hroot]
        exact startsWith_root e.path
      · have hunB := (mem_getUnreadableRootsWithCwd hs hkB hcwd).mpr ⟨hdeny, hroot⟩
        obtain ⟨hgA, -⟩ := (mem_getUnreadableRootsWithCwd hs hkA hcwd).mp ((h.unreadable _).mpr hunB)
        have hle := he.key_prefix hgA.mem hg.covers
        exact hle
    rw [startsWith_antisymm hdown hup] at hf
    exact hfr (hf.value_eq hdeny)

end

/-! ## Writing -/

/-- Under `A` the path can be written through an entry whose `.git` file points to a directory below it that
contains the path; `B` has an entry for that directory. -/
def GitdirMasked (host : Host) (cwd : Path) (A B : FileSystemSandboxPolicy) (path : AbsolutePathBuf) : Prop :=
  ∃ root gitdir, Governs (A.resolvedEntriesWithCwd host cwd) path ⟨root, .write⟩ ∧
    A.isMetadataWriteDenied host path.asPath cwd = false ∧
    gitdirOf host root = some gitdir ∧ gitdir.startsWith root ∧ gitdir ≠ root ∧ path.startsWith gitdir ∧
    ∃ e ∈ B.resolvedEntriesWithCwd host cwd, e.path = gitdir

section

variable {A B : FileSystemSandboxPolicy} {host : Host} {cwd path : Path} {c target : AbsolutePathBuf}

theorem isMetadataWriteDenied_asPath (hk : A.kind = .restricted)
    (ht : resolveCandidatePath host path cwd = some target) :
    A.isMetadataWriteDenied host target.asPath cwd = A.isMetadataWriteDenied host path cwd := by
  rw [Bool.eq_iff_iff, isMetadataWriteDenied_iff hk ht,
    isMetadataWriteDenied_iff hk (resolveCandidatePath_asPath host target cwd)]

namespace SameSignature

variable (h : SameSignature host cwd A B) (hs : host.SymlinkFree) (hfull : A.hasFullDiskWriteAccess = false)
  (ht : resolveCandidatePath host path cwd = some target)

include h hs hfull ht

/-- The directory of a pointer file is read-only under a policy that names it. -/
theorem not_canWrite_of_gitdirMasked (hmask : GitdirMasked host cwd A B target) :
    A.canWritePathWithCwd host path cwd ∧ B.canWritePathWithCwd host path cwd = false := by
  obtain ⟨root, gitdir, hg, hden, -, hbelow, hne, hcov, f, hf, rfl⟩ := hmask
  have hkA := restricted_of_not_full hfull
  have hfullB := h.fullWrite.symm.trans hfull
  have hkB := restricted_of_not_full hfullB
  constructor
  · have hres := resolveAccess_of_governs hkA ht hg
    rw [isMetadataWriteDenied_asPath hkA ht] at hden
    simp [canWritePathWithCwd, hres, hden]
  · apply Bool.eq_false_of_not_eq_true
    intro hcan
    obtain ⟨e, he, hew⟩ := exists_governs_of_canWrite hkB ht hcan
    have heq : e = ⟨e.path, .write⟩ := ResolvedFileSystemEntry.ext rfl hew
    have hrootB : WriteRoot (B.resolvedEntriesWithCwd host cwd) e.path := heq ▸ he.self
    obtain ⟨hrootA, -⟩ := h.symm.writableRoot hs hfullB hrootB
    -- the writable root is at or below the directory, and at or above the root of `A`
    have hdown : e.path.startsWith f.path := he.key_prefix hf hcov
    have hup : root.startsWith e.path := by
      have hle := hg.key_prefix hrootA.mem he.covers
      exact hle
    exact hne (startsWith_antisymm hbelow (hdown.trans hup))

/-- An entry of `B` with write access that governs the path is for the root that governs it in `A`. -/
theorem canWrite_of_governs {root : AbsolutePathBuf}
    (he : Governs (A.resolvedEntriesWithCwd host cwd) target ⟨root, .write⟩)
    (hcan : A.canWritePathWithCwd host path cwd) {g : ResolvedFileSystemEntry}
    (hg : Governs (B.resolvedEntriesWithCwd host cwd) target g) (hgw : g.access = .write) :
    B.canWritePathWithCwd host path cwd := by
  have hfullB := h.fullWrite.symm.trans hfull
  obtain ⟨hrootB, -, hnames⟩ := h.writableRoot hs hfull he.self
  have hup : g.path.startsWith root := hg.key_prefix hrootB.mem he.covers
  have heq : g = ⟨g.path, .write⟩ := ResolvedFileSystemEntry.ext rfl hgw
  have hgB : WriteRoot (B.resolvedEntriesWithCwd host cwd) g.path := heq ▸ hg.self
  obtain ⟨hgA, -⟩ := h.symm.writableRoot hs hfullB hgB
  have hdown := he.key_prefix hgA.mem hg.covers
  have hpath : g.path = root := startsWith_antisymm hup hdown
  refine (canWrite_iff_protectedMetadataNames hs hfullB ht hg hgw).mpr ?_
  intro m hm
  rw [hpath] at hm ⊢
  exact (canWrite_iff_protectedMetadataNames hs hfull ht he rfl).mp hcan m ((hnames m).mpr hm)

/-- What only the first of two policies with the same signature lets through lies in the directory of a pointer
file. -/
theorem gitdirMasked_of_canWrite (hcanA : A.canWritePathWithCwd host path cwd)
    (hcanB : B.canWritePathWithCwd host path cwd = false) : GitdirMasked host cwd A B target := by
  have hkA := restricted_of_not_full hfull
  have hfullB := h.fullWrite.symm.trans hfull
  have hkB := restricted_of_not_full hfullB
  obtain ⟨⟨root, access⟩, he, rfl⟩ := exists_governs_of_canWrite hkA ht hcanA
  obtain ⟨hrootB, hsub, hnames⟩ := h.writableRoot hs hfull he.self
  obtain ⟨g, hg⟩ := exists_governs hrootB.mem he.covers
  have hgw : g.access ≠ .write := by
    intro hgw
    rw [h.canWrite_of_governs hs hfull ht he hcanA hg hgw] at hcanB
    cases hcanB
  have hup : g.path.startsWith root := hg.key_prefix hrootB.mem he.covers
  have hne : g.path ≠ root := by
    intro heq
    have hgroot : Governs (B.resolvedEntriesWithCwd host cwd) root g := hg.between (by rw [heq]) he.covers
    exact hgw (hgroot.value_eq hrootB)
  have hmemB := mem_readOnlySubpaths_of_governs hs hfullB hrootB he.covers hg hgw
  rcases (mem_readOnlySubpaths hs).mp ((hsub _).mpr hmemB) with hdefault | ⟨⟨f, hf, hfpath, -⟩, -, -, -⟩
  · rcases mem_defaultReadOnlySubpaths hs hdefault.1 with hgit | ⟨m, hm, hjoin⟩
    · refine ⟨root, g.path, he, ?_, hgit, hup, hne, hg.covers, g, hg.mem, rfl⟩
      rw [isMetadataWriteDenied_asPath hkA ht]
      apply Bool.eq_false_of_not_eq_true
      intro hden
      obtain ⟨m, hm⟩ := (isMetadataWriteDenied_iff_governs hkA ht he rfl).mp hden
      exact ((canWrite_iff_of_governs hkA hfull ht he).mp hcanA).2 m hm
    · -- a metadata directory that `B` does not let through is a protected name of both
      have hnoB : B.canWritePathWithCwd host (root.join host.process m).asPath cwd = false := by
        rw [← hjoin]
        apply Bool.eq_false_of_not_eq_true
        intro hcan
        exact hgw ((canWrite_entry_iff hkB hfullB hg.self).mp hcan)
      have hmA := (hnames m).mpr ((mem_protectedMetadataNames hs).mpr ⟨hm, hnoB⟩)
      have hcov : root.components ++ [m] <+: target.components := by
        rw [← join_protected_components host root hm, ← hjoin]
        exact hg.covers
      exact absurd hcov ((canWrite_iff_protectedMetadataNames hs hfull ht he rfl).mp hcanA m hmA)
  · -- `A` would have an entry below the one that governs
    have hdown := he.key_prefix hf (hfpath ▸ hg.covers)
    rw [hfpath] at hdown
    exact absurd (startsWith_antisymm hup hdown) hne

end SameSignature

end

/-! ## Access -/

/-- A path that `A` lets through and `B` does not, although their signatures are equal. -/
def Unseen (host : Host) (cwd : Path) (A B : FileSystemSandboxPolicy) (path : AbsolutePathBuf) : Prop :=
  (A.hasFullDiskWriteAccess ∧ TmpShadowed B host cwd path ∧ ¬ TmpShadowed A host cwd path) ∨
    (A.hasFullDiskWriteAccess = false ∧ GitdirMasked host cwd A B path)

/-- The policies agree on reading the path, and on writing it unless one of them lets it through unseen. -/
def AgreeUnlessUnseen (host : Host) (cwd : Path) (A B : FileSystemSandboxPolicy) (path : Path)
    (target : AbsolutePathBuf) : Prop :=
  A.canReadPathWithCwd host path cwd = B.canReadPathWithCwd host path cwd ∧
    (A.canWritePathWithCwd host path cwd = B.canWritePathWithCwd host path cwd ↔
      ¬ Unseen host cwd A B target ∧ ¬ Unseen host cwd B A target)

section

variable {A B : FileSystemSandboxPolicy} {host : Host} {cwd path : Path} {c target : AbsolutePathBuf}

namespace SameSignature

variable (h : SameSignature host cwd A B) (hs : host.SymlinkFree)
  (hcwd : AbsolutePathBuf.fromAbsolutePath host.process cwd = some c)
  (ht : resolveCandidatePath host path cwd = some target)

include h hs hcwd ht

theorem unseen_iff : Unseen host cwd A B target ↔
    A.canWritePathWithCwd host path cwd ∧ B.canWritePathWithCwd host path cwd = false := by
  cases hfull : A.hasFullDiskWriteAccess with
  | true =>
    have hA := canWrite_iff_of_hasFullDiskWriteAccess hcwd ht hfull
    have hB := canWrite_iff_of_hasFullDiskWriteAccess hcwd ht (h.fullWrite.symm.trans hfull)
    rw [← Bool.not_eq_true, hA, hB]
    simp [Unseen, hfull, and_comm]
  | false =>
    constructor
    · rintro (⟨htrue, -⟩ | ⟨-, hmask⟩)
      · rw [hfull] at htrue
        cases htrue
      · exact h.not_canWrite_of_gitdirMasked hs hfull ht hmask
    · rintro ⟨hA, hB⟩
      exact .inr ⟨hfull, h.gitdirMasked_of_canWrite hs hfull ht hA hB⟩

theorem agreeUnlessUnseen : AgreeUnlessUnseen host cwd A B path target := by
  constructor
  · rw [Bool.eq_iff_iff]
    exact ⟨h.canRead hs hcwd ht, h.symm.canRead hs hcwd ht⟩
  · rw [h.unseen_iff hs hcwd ht, h.symm.unseen_iff hs hcwd ht]
    cases A.canWritePathWithCwd host path cwd <;> cases B.canWritePathWithCwd host path cwd <;> simp

end SameSignature

/-- A policy that needs no direct enforcement has the signature of its legacy projection. -/
theorem exists_legacy_of_not_needsDirect {network : NetworkSandboxPolicy} (hk : A.kind = .restricted)
    (h : A.needsDirectRuntimeEnforcement host network cwd = false) :
    ∃ legacy, A.toLegacySandboxPolicy host network cwd = .ok legacy ∧ A.semanticSignature host cwd =
        (legacyRuntimeFileSystemPolicyForCwd host legacy cwd).semanticSignature host cwd := by
  unfold needsDirectRuntimeEnforcement at h
  rw [if_neg (by simp [hk])] at h
  split at h
  next => cases h
  next legacy hlegacy =>
    split at h
    · cases h
    · exact ⟨legacy, hlegacy, by simpa using h⟩

end

/-- Policies with equal signatures give equal access up to the paths that one of them lets through unseen; a
policy that needs no direct enforcement has the signature of its legacy projection. -/
theorem signature_access_iff {host : Host} (hs : host.SymlinkFree) {cwd : Path} (hcwd : cwd.isAbsolute)
    {path : Path} {target : AbsolutePathBuf} (ht : resolveCandidatePath host path cwd = some target) :
    (∀ A B : FileSystemSandboxPolicy, A.isSemanticallyEquivalentTo B host cwd = true →
      AgreeUnlessUnseen host cwd A B path target) ∧
    ∀ (A : FileSystemSandboxPolicy) (network : NetworkSandboxPolicy), A.kind = .restricted →
      A.needsDirectRuntimeEnforcement host network cwd = false →
      ∃ legacy, A.toLegacySandboxPolicy host network cwd = .ok legacy ∧
        AgreeUnlessUnseen host cwd A (legacyRuntimeFileSystemPolicyForCwd host legacy cwd) path target := by
  obtain ⟨c, hc⟩ := exists_fromAbsolutePath host.process hcwd
  constructor
  · intro A B heq
    have hsame := SameSignature.of_eq (of_decide_eq_true heq)
    exact hsame.agreeUnlessUnseen hs hc ht
  · intro A network hk hneeds
    obtain ⟨legacy, hlegacy, heq⟩ := exists_legacy_of_not_needsDirect hk hneeds
    exact ⟨legacy, hlegacy, (SameSignature.of_eq heq).agreeUnlessUnseen hs hc ht⟩

def workspace : FileSystemSandboxPolicy :=
  .restricted [⟨.special .root, .read, none⟩, ⟨.special (.projectRoots none), .write, none⟩]

def reordered : FileSystemSandboxPolicy :=
  .restricted [⟨.path workDir, .write, none⟩, ⟨.special .root, .read, none⟩]

theorem signature_access_reordered :
    AgreeUnlessUnseen nestedHost workDir.asPath workspace reordered workFile.asPath workFile := by
  have ht := resolveCandidatePath_asPath nestedHost workFile workDir.asPath
  have heq : workspace.isSemanticallyEquivalentTo reordered nestedHost workDir.asPath := by
    decide +kernel
  exact (signature_access_iff (Host.ofNodes_symlinkFree _) (Path.isAbsolute_asPath workDir) ht).1 workspace reordered heq

def workGit : AbsolutePathBuf := ⟨["w".toList, ".git".toList], by decide⟩
def workAgents : AbsolutePathBuf := ⟨["w".toList, ".agents".toList], by decide⟩
def workStore : AbsolutePathBuf := ⟨["w".toList, "store".toList], by decide⟩
def workStoreFile : AbsolutePathBuf := ⟨["w".toList, "store".toList, "x".toList], by decide⟩

def pointerHost : Host :=
  .ofNodes [(.root, .dir), (workDir, .dir), (workGit, .file (some "gitdir: store".toList)), (workAgents, .dir),
    (workStore, .dir)]

/-- The policy needs no direct enforcement, but its legacy projection makes the git directory read-only. -/
theorem needsDirect_pointer : workspace.needsDirectRuntimeEnforcement pointerHost .restricted workDir.asPath = false ∧
    workspace.toLegacySandboxPolicy pointerHost .restricted workDir.asPath = .ok (.workspaceWrite [] false true true) ∧
    workspace.isSemanticallyEquivalentTo
      (legacyRuntimeFileSystemPolicyForCwd pointerHost (.workspaceWrite [] false true true) workDir.asPath)
      pointerHost workDir.asPath = true ∧
    workspace.canWritePathWithCwd pointerHost workStoreFile.asPath workDir.asPath = true ∧
    (legacyRuntimeFileSystemPolicyForCwd pointerHost (.workspaceWrite [] false true true)
      workDir.asPath).canWritePathWithCwd pointerHost workStoreFile.asPath workDir.asPath = false := by
  decide +kernel

end Dcode.Permissions
