import Dcode.TurnDiff.Proofs.RefreshProofs

/-!
# Proofs: the diff of a turn

A revision is given to one content only, so a diff that is cached under two revisions is the diff of the two
contents. The aggregated diff is then what rendering every pair afresh gives.
-/

namespace Dcode.TurnDiff

open List ApplyPatch

namespace TurnDiffTracker

variable {P : Type} [DecidableEq P] {t : TurnDiffTracker P}

/-! ## The diffs of the pairs -/

/-- The diff of two paths, rendered from what they hold. -/
def pairDiff (ops : RenderOps P) (t : TurnDiffTracker P) (pair : TrackedPath P × TrackedPath P) : Option Str :=
  t.renderDiff ops pair.1 ((t.baselineByPath.lookup pair.1).map (·.content)) pair.2
    ((t.currentByPath.lookup pair.2).map (·.content))

/-- The diffs one behind the other, each with a line break at its end; nothing if they are empty. -/
def aggregate (diffs : List Str) : Option Str :=
  let aggregated := diffs.foldl pushDiff []
  if aggregated = [] then none else some aggregated

/-- What the unified diff has to be: one diff for each rendered pair whose contents differ. -/
def freshDiff (ops : RenderOps P) (t : TurnDiffTracker P) : Option Str :=
  if t.valid then aggregate ((t.renderedPairs ops).filterMap (t.pairDiff ops)) else none

theorem pairDiff_eq_none_iff (ops : RenderOps P) (pair : TrackedPath P × TrackedPath P) :
    t.pairDiff ops pair = none ↔
      (t.baselineByPath.lookup pair.1).map (·.content) = (t.currentByPath.lookup pair.2).map (·.content) := by
  unfold pairDiff renderDiff
  split
  next heq => exact iff_of_true rfl heq
  next hne => exact iff_of_false nofun hne

/-! ## The cache -/

/-- The content of a revision is the one in the list of all contents that got one. -/
def Known (contents : List Str) (revision : Option Nat) (content : Option Str) : Prop :=
  revision.map (contents[·]?) = content.map some

/-- Every content of the map is that of its revision. -/
def AllKnown (contents : List Str) (m : AList fun _ : TrackedPath P => TrackedContent) : Prop :=
  ∀ p, Known contents ((m.lookup p).map (·.revision)) ((m.lookup p).map (·.content))

/-- Every diff is that of the contents its key stands for. -/
def RightDiffs (ops : RenderOps P) (contents : List Str) (t : TurnDiffTracker P)
    (diffs : AList fun _ : DiffCacheKey P => Option Str) : Prop :=
  ∀ key, ∀ diff ∈ diffs.lookup key, ∃ left right, Known contents key.leftRevision left ∧
    Known contents key.rightRevision right ∧ diff = t.renderDiff ops key.leftPath left key.rightPath right

/-- `contents` has the contents of all revisions so far, and the maps and the cache agree with it. -/
structure CacheInv (ops : RenderOps P) (contents : List Str) (t : TurnDiffTracker P) : Prop where
  length : contents.length = t.nextRevision
  baseline : AllKnown contents t.baselineByPath
  current : AllKnown contents t.currentByPath
  cache : RightDiffs ops contents t t.renderedDiffs

variable {ops : RenderOps P} {contents : List Str} {m : AList fun _ : TrackedPath P => TrackedContent}
  {diffs : AList fun _ : DiffCacheKey P => Option Str}

theorem Known.append {revision : Option Nat} {content : Option Str} (h : Known contents revision content) (new : Str) :
    Known (contents ++ [new]) revision content := by
  cases revision with
  | none => exact h
  | some revision =>
    cases content with
    | none => cases h
    | some content =>
      have hsome : contents[revision]? = some content := Option.some.inj h
      obtain ⟨hlt, -⟩ := List.getElem?_eq_some_iff.mp hsome
      simp [Known, getElem?_append_left hlt, hsome]

theorem Known.unique {revision : Option Nat} {content content' : Option Str} (h : Known contents revision content)
    (h' : Known contents revision content') : content = content' :=
  Option.map_injective (Option.some_injective _) (h.symm.trans h')

theorem AllKnown.append (h : AllKnown contents m) (new : Str) : AllKnown (contents ++ [new]) m :=
  fun p => (h p).append new

theorem AllKnown.insert (h : AllKnown contents m) (p : TrackedPath P) (new : Str) :
    AllKnown (contents ++ [new]) (m.insert p ⟨new, contents.length⟩) := by
  intro q
  by_cases hq : q = p
  · subst hq
    simp [Known]
  · simpa [hq] using (h q).append new

theorem AllKnown.erase (h : AllKnown contents m) (p : TrackedPath P) : AllKnown contents (m.erase p) := by
  intro q
  by_cases hq : q = p
  · subst hq
    simp [Known]
  · simpa [hq] using h q

theorem RightDiffs.append (h : RightDiffs ops contents t diffs) (new : Str) :
    RightDiffs ops (contents ++ [new]) t diffs := by
  intro key diff hdiff
  obtain ⟨left, right, hleft, hright, hrender⟩ := h key diff hdiff
  exact ⟨left, right, hleft.append new, hright.append new, hrender⟩

theorem rightDiffs_empty (ops : RenderOps P) (contents : List Str) (t : TurnDiffTracker P) :
    RightDiffs ops contents t ∅ := by
  intro key diff hdiff
  cases hdiff

theorem RightDiffs.erase (h : RightDiffs ops contents t diffs) (key : DiffCacheKey P) :
    RightDiffs ops contents t (diffs.erase key) := by
  intro other diff hdiff
  by_cases hother : other = key
  · subst hother
    simp at hdiff
  · rw [AList.lookup_erase_ne hother] at hdiff
    exact h other diff hdiff

/-! ## Changes -/

theorem captureBaseline_currentByPath (t : TurnDiffTracker P) (p : TrackedPath P) (content : Option Str) :
    (t.captureBaseline p content).currentByPath = t.currentByPath := by
  unfold captureBaseline
  split
  · cases content <;> rfl
  · rfl

section

variable (h : CacheInv ops contents t)

include h

theorem CacheInv.insertCurrent (p : TrackedPath P) (content : Str) :
    CacheInv ops (contents ++ [content]) (t.insertCurrent p content) where
  length := by simp [h.length, TurnDiffTracker.insertCurrent]
  baseline := h.baseline.append content
  current := by
    have hnew := h.current.insert p content
    rwa [h.length] at hnew
  cache := h.cache.append content

theorem CacheInv.captureBaseline (p : TrackedPath P) (content : Option Str) :
    ∃ contents', CacheInv ops contents' (t.captureBaseline p content) := by
  unfold TurnDiffTracker.captureBaseline
  split
  · cases content with
    | none => exact ⟨contents, h⟩
    | some content =>
      have hnew := h.baseline.insert p content
      rw [h.length] at hnew
      exact ⟨contents ++ [content], by simp [h.length, insertBaseline], hnew, h.current.append content,
        h.cache.append content⟩
  · exact ⟨contents, h⟩

theorem CacheInv.applyChange (environmentId : Str) (change : AppliedPatchChange P) :
    ∃ contents', CacheInv ops contents' (t.applyChange environmentId change) := by
  obtain ⟨path, change⟩ := change
  cases change with
  | add content overwritten =>
    obtain ⟨contents', h'⟩ := CacheInv.captureBaseline
      (t := { t with originByCurrentPath := t.originByCurrentPath.erase ⟨environmentId, path⟩ })
      ⟨h.length, h.baseline, h.current, h.cache⟩ ⟨environmentId, path⟩ overwritten
    exact ⟨_, h'.insertCurrent ⟨environmentId, path⟩ content⟩
  | delete content =>
    obtain ⟨contents', h'⟩ := h.captureBaseline ⟨environmentId, path⟩ (some content)
    show ∃ contents', CacheInv ops contents' (t.applyDelete ⟨environmentId, path⟩ content)
    rw [applyDelete_eq]
    refine ⟨contents', h'.length, h'.baseline, ?_, h'.cache⟩
    rw [← captureBaseline_currentByPath t ⟨environmentId, path⟩ (some content)]
    exact h'.current.erase _
  | update movePath old overwritten new =>
    obtain ⟨contents', h'⟩ := h.captureBaseline ⟨environmentId, path⟩ (some old)
    cases movePath with
    | none => exact ⟨_, h'.insertCurrent ⟨environmentId, path⟩ new⟩
    | some dest =>
      obtain ⟨contents'', h''⟩ := h'.captureBaseline ⟨environmentId, dest⟩ overwritten
      have herased : CacheInv ops contents'' { (t.captureBaseline ⟨environmentId, path⟩ (some old)).captureBaseline
          ⟨environmentId, dest⟩ overwritten with
          currentByPath := ((t.captureBaseline ⟨environmentId, path⟩ (some old)).captureBaseline
            ⟨environmentId, dest⟩ overwritten).currentByPath.erase ⟨environmentId, path⟩ } :=
        ⟨h''.length, h''.baseline, h''.current.erase ⟨environmentId, path⟩, h''.cache⟩
      have hmoved := herased.insertCurrent ⟨environmentId, dest⟩ new
      exact ⟨_, hmoved.length, hmoved.baseline, hmoved.current, hmoved.cache⟩

omit h in
theorem exists_cacheInv_applyChanges (environmentId : Str) (changes : List (AppliedPatchChange P))
    (h : ∃ contents, CacheInv ops contents t) :
    ∃ contents, CacheInv ops contents (changes.foldl (TurnDiffTracker.applyChange environmentId) t) := by
  induction changes generalizing t with
  | nil => exact h
  | cons change changes ih =>
    obtain ⟨contents, h⟩ := h
    exact ih (h.applyChange environmentId change)

/-! ## Refreshing -/

/-- A cached diff is the diff of the contents: its revisions have no others. -/
theorem CacheInv.refreshPair {r : Refresh P} (hprevious : RightDiffs ops contents t r.previousDiffs)
    (hrendered : RightDiffs ops contents t r.renderedDiffs) (pair : TrackedPath P × TrackedPath P) :
    (t.refreshPair ops r pair.1 pair.2).aggregated = ((t.pairDiff ops pair).toList).foldl pushDiff r.aggregated ∧
      RightDiffs ops contents t (t.refreshPair ops r pair.1 pair.2).previousDiffs ∧
      RightDiffs ops contents t (t.refreshPair ops r pair.1 pair.2).renderedDiffs := by
  let key : DiffCacheKey P := {
    leftPath := pair.1
    leftRevision := (t.baselineByPath.lookup pair.1).map (·.revision)
    rightPath := pair.2
    rightRevision := (t.currentByPath.lookup pair.2).map (·.revision) }
  have hrender : (r.previousDiffs.lookup key).getD (t.pairDiff ops pair) = t.pairDiff ops pair := by
    cases hcached : r.previousDiffs.lookup key with
    | none => rfl
    | some diff =>
      obtain ⟨left, right, hleft, hright, rfl⟩ := hprevious key diff hcached
      rw [hleft.unique (h.baseline pair.1), hright.unique (h.current pair.2)]
      rfl
  unfold TurnDiffTracker.refreshPair
  rw [pairDiff] at hrender
  refine ⟨?_, hprevious.erase key, ?_⟩
  · rw [pairDiff, ← hrender]
    dsimp only
    cases (r.previousDiffs.lookup key).getD _ <;> rfl
  · intro other diff hdiff
    by_cases hother : other = key
    · subst hother
      rw [AList.lookup_insert] at hdiff
      refine ⟨_, _, h.baseline pair.1, h.current pair.2, ?_⟩
      rw [← Option.some.inj hdiff, hrender]
    · rw [AList.lookup_insert_ne hother] at hdiff
      exact hrendered other diff hdiff

theorem CacheInv.refreshPairs (pairs : List (TrackedPath P × TrackedPath P)) {r : Refresh P}
    (hprevious : RightDiffs ops contents t r.previousDiffs) (hrendered : RightDiffs ops contents t r.renderedDiffs) :
    (t.refreshPairs ops pairs r).aggregated = (pairs.filterMap (t.pairDiff ops)).foldl pushDiff r.aggregated ∧
      RightDiffs ops contents t (t.refreshPairs ops pairs r).renderedDiffs := by
  induction pairs generalizing r with
  | nil => exact ⟨rfl, hrendered⟩
  | cons pair pairs ih =>
    obtain ⟨hfirst, hprevious', hrendered'⟩ := h.refreshPair hprevious hrendered pair
    obtain ⟨hrest, hdone⟩ := ih hprevious' hrendered'
    refine ⟨hrest.trans ?_, hdone⟩
    rw [hfirst, filterMap_cons]
    cases t.pairDiff ops pair <;> rfl

theorem CacheInv.refreshUnifiedDiff : CacheInv ops contents (t.refreshUnifiedDiff ops) ∧
    (t.refreshUnifiedDiff ops).unifiedDiff = aggregate ((t.renderedPairs ops).filterMap (t.pairDiff ops)) := by
  obtain ⟨haggregated, hcache⟩ := h.refreshPairs (t.renderedPairs ops) (r := { previousDiffs := t.renderedDiffs })
    h.cache (rightDiffs_empty ops contents t)
  rw [refreshUnifiedDiff_eq]
  refine ⟨⟨h.length, h.baseline, h.current, hcache⟩, ?_⟩
  rw [refreshWith, aggregate, haggregated]

end

/-! ## Runs -/

/-- The cache is right, and the unified diff is what rendering every pair gives. -/
structure DiffInv (ops : RenderOps P) (t : TurnDiffTracker P) : Prop where
  cache : ∃ contents, CacheInv ops contents t
  unified : t.unifiedDiff = t.freshDiff ops

theorem diffInv_start (ops : RenderOps P) (displayRoots : List (Str × P)) :
    DiffInv ops (withEnvironmentDisplayRoots displayRoots) where
  cache := ⟨[], rfl, fun _ => rfl, fun _ => rfl, rightDiffs_empty _ _ _⟩
  unified := rfl

theorem DiffInv.trackDelta (h : DiffInv ops t) (environmentId : Str) (delta : AppliedPatchDelta P) :
    DiffInv ops (t.trackDelta ops environmentId delta) := by
  unfold TurnDiffTracker.trackDelta
  cases hvalid : t.valid with
  | false => simpa using h
  | true =>
    obtain ⟨contents, hcache⟩ := h.cache
    cases delta.exact with
    | false => exact ⟨⟨contents, hcache.length, hcache.baseline, hcache.current, rightDiffs_empty _ _ _⟩, rfl⟩
    | true =>
      obtain ⟨contents', hchanged⟩ := exists_cacheInv_applyChanges environmentId delta.changes h.cache
      obtain ⟨hrefreshed, hunified⟩ := hchanged.refreshUnifiedDiff
      refine ⟨⟨contents', hrefreshed⟩, hunified.trans ?_⟩
      have hstill := (applyChanges_valid t environmentId delta.changes).trans hvalid
      exact (if_pos hstill).symm

/-- The tracker after some calls of `track_delta`. -/
def trackDeltas (ops : RenderOps P) (deltas : List (Str × AppliedPatchDelta P)) (t : TurnDiffTracker P) :
    TurnDiffTracker P :=
  deltas.foldl (fun t delta => t.trackDelta ops delta.1 delta.2) t

theorem DiffInv.trackDeltas (h : DiffInv ops t) (deltas : List (Str × AppliedPatchDelta P)) :
    DiffInv ops (t.trackDeltas ops deltas) := by
  induction deltas generalizing t with
  | nil => exact h
  | cons delta deltas ih => exact ih (h.trackDelta delta.1 delta.2)

/-- Each tracked change is in the aggregated diff once: the unified diff of a valid tracker has one diff for each
rendered pair whose contents differ, in order, and each path with a baseline is the left side of one pair and each path
with current contents the right side of one. -/
structure ShowsOnce (ops : RenderOps P) (t : TurnDiffTracker P) : Prop where
  unified : t.unifiedDiff = if t.valid then aggregate ((t.renderedPairs ops).filterMap (t.pairDiff ops)) else none
  differs : ∀ pair, t.pairDiff ops pair = none ↔
    (t.baselineByPath.lookup pair.1).map (·.content) = (t.currentByPath.lookup pair.2).map (·.content)
  left : ∀ path ∈ t.baselineByPath, ((t.renderedPairs ops).map Prod.fst).count path = 1
  right : ∀ path ∈ t.currentByPath, ((t.renderedPairs ops).map Prod.snd).count path = 1

/-- The tracker with no diff kept. -/
def withoutCache (t : TurnDiffTracker P) : TurnDiffTracker P := { t with renderedDiffs := ∅ }

/-- `track_delta` with the cache emptied before, so that every pair is rendered afresh. -/
def trackDeltaFresh (ops : RenderOps P) (t : TurnDiffTracker P) (environmentId : Str) (delta : AppliedPatchDelta P) :
    TurnDiffTracker P :=
  t.withoutCache.trackDelta ops environmentId delta

theorem captureBaseline_withoutCache (t : TurnDiffTracker P) (p : TrackedPath P) (content : Option Str) :
    t.withoutCache.captureBaseline p content = (t.captureBaseline p content).withoutCache := by
  unfold captureBaseline
  by_cases hp : p ∉ t.currentByPath ∧ p ∉ t.baselineByPath
  · have hp' : p ∉ t.withoutCache.currentByPath ∧ p ∉ t.withoutCache.baselineByPath := hp
    rw [if_pos hp', if_pos hp]
    cases content <;> rfl
  · have hp' : ¬ (p ∉ t.withoutCache.currentByPath ∧ p ∉ t.withoutCache.baselineByPath) := hp
    rw [if_neg hp', if_neg hp]

theorem applyChange_withoutCache (t : TurnDiffTracker P) (environmentId : Str) (change : AppliedPatchChange P) :
    t.withoutCache.applyChange environmentId change = (t.applyChange environmentId change).withoutCache := by
  obtain ⟨path, change⟩ := change
  cases change with
  | add content overwritten =>
    exact congrArg (insertCurrent · ⟨environmentId, path⟩ content) (captureBaseline_withoutCache
      { t with originByCurrentPath := t.originByCurrentPath.erase ⟨environmentId, path⟩ } _ overwritten)
  | delete content =>
    show t.withoutCache.applyDelete ⟨environmentId, path⟩ content =
      (t.applyDelete ⟨environmentId, path⟩ content).withoutCache
    rw [applyDelete_eq, applyDelete_eq, captureBaseline_withoutCache]
    rfl
  | update movePath old overwritten new =>
    have hcapture := captureBaseline_withoutCache t ⟨environmentId, path⟩ (some old)
    cases movePath with
    | none => exact congrArg (insertCurrent · ⟨environmentId, path⟩ new) hcapture
    | some dest =>
      show (t.withoutCache.captureBaseline ⟨environmentId, path⟩ (some old)).applyMove _ ⟨environmentId, dest⟩ _ _ = _
      rw [hcapture, applyMove, captureBaseline_withoutCache]
      rfl

theorem applyChanges_withoutCache (t : TurnDiffTracker P) (environmentId : Str)
    (changes : List (AppliedPatchChange P)) :
    changes.foldl (applyChange environmentId) t.withoutCache =
      (changes.foldl (applyChange environmentId) t).withoutCache := by
  induction changes generalizing t with
  | nil => rfl
  | cons change changes ih => rw [foldl_cons, applyChange_withoutCache, ih, foldl_cons]

theorem DiffInv.trackDelta_fresh (h : DiffInv ops t) (environmentId : Str) (delta : AppliedPatchDelta P) :
    (t.trackDelta ops environmentId delta).withoutCache = (t.trackDeltaFresh ops environmentId delta).withoutCache := by
  unfold trackDeltaFresh TurnDiffTracker.trackDelta
  have hvalid : t.withoutCache.valid = t.valid := rfl
  rw [hvalid, applyChanges_withoutCache]
  split
  · rfl
  · split
    · rfl
    · obtain ⟨contents, hcache⟩ := exists_cacheInv_applyChanges environmentId delta.changes h.cache
      have hempty : CacheInv ops contents (delta.changes.foldl (applyChange environmentId) t).withoutCache :=
        ⟨hcache.length, hcache.baseline, hcache.current, rightDiffs_empty _ _ _⟩
      have hunified := hcache.refreshUnifiedDiff.2.trans hempty.refreshUnifiedDiff.2.symm
      exact congrArg (fun diff => { (delta.changes.foldl (applyChange environmentId) t).withoutCache with
        unifiedDiff := diff }) hunified

/-- The cache is transparent: the unified diff is that of a tracker that renders every pair afresh in every call. -/
theorem trackDeltas_eq_fresh (ops : RenderOps P) (displayRoots : List (Str × P))
    (deltas : List (Str × AppliedPatchDelta P)) :
    (trackDeltas ops deltas (withEnvironmentDisplayRoots displayRoots)).unifiedDiff =
      (deltas.foldl (fun t delta => t.trackDeltaFresh ops delta.1 delta.2)
        (withEnvironmentDisplayRoots displayRoots)).unifiedDiff := by
  -- along both runs, the trackers agree in all but their caches
  suffices hrun : ∀ t t' : TurnDiffTracker P, DiffInv ops t → t.withoutCache = t'.withoutCache →
      (t.trackDeltas ops deltas).unifiedDiff =
        (deltas.foldl (fun t delta => t.trackDeltaFresh ops delta.1 delta.2) t').unifiedDiff from
    hrun _ _ (diffInv_start ops displayRoots) rfl
  induction deltas with
  | nil =>
    intro t t' _ hsame
    have hunified := congrArg unifiedDiff hsame
    exact hunified
  | cons delta deltas ih =>
    intro t t' h hsame
    refine ih _ _ (h.trackDelta delta.1 delta.2) ?_
    rw [h.trackDelta_fresh, trackDeltaFresh, hsame]
    rfl

end TurnDiffTracker

end Dcode.TurnDiff
