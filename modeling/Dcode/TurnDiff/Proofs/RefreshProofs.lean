import Dcode.TurnDiff.Proofs.TrackerProofs

/-!
# Proofs: what a refresh renders

A refresh renders pairs of paths, and every path of the two maps stands in exactly one of them.
-/

namespace Dcode.TurnDiff

open List

namespace TurnDiffTracker

variable {P : Type} [DecidableEq P] {t : TurnDiffTracker P}

/-! ## Renames -/

def IsRename (t : TurnDiffTracker P) (entry : Sigma fun _ : TrackedPath P => TrackedPath P) : Prop :=
  ¬ (entry.1 = entry.2 ∨ entry.2 ∈ t.currentByPath ∨ entry.1 ∉ t.currentByPath ∨ entry.2 ∉ t.baselineByPath ∨
    entry.1 ∈ t.baselineByPath)

instance (entry : Sigma fun _ : TrackedPath P => TrackedPath P) : Decidable (t.IsRename entry) :=
  inferInstanceAs (Decidable (¬ _))

/-- The last rename of an origin counts. -/
theorem lookup_renamePairs_eq (origin : TrackedPath P) : t.renamePairs.lookup origin =
      (t.originByCurrentPath.entries.filter fun entry => t.IsRename entry ∧ entry.2 = origin).getLast?.map (·.1) := by
  unfold renamePairs
  induction t.originByCurrentPath.entries using reverseRecOn with
  | nil => rfl
  | append_singleton entries entry ih =>
    rw [foldl_append, foldl_cons, foldl_nil]
    by_cases hrename : t.IsRename entry
    · rw [if_neg hrename]
      by_cases horigin : entry.2 = origin
      · rw [← horigin]
        simp [hrename]
      · rw [AList.lookup_insert_ne (Ne.symm horigin), ih]
        simp [horigin]
    · rw [if_pos (not_not.mp hrename), ih]
      simp [hrename]

theorem lookup_renamePairs {origin dest : TrackedPath P} (h : t.renamePairs.lookup origin = some dest) :
    ⟨dest, origin⟩ ∈ t.originByCurrentPath.entries ∧ t.IsRename ⟨dest, origin⟩ := by
  rw [lookup_renamePairs_eq] at h
  obtain ⟨⟨dest', origin'⟩, hlast, rfl⟩ := Option.map_eq_some_iff.mp h
  obtain ⟨hmem, hkept⟩ := mem_filter.mp (mem_of_getLast? hlast)
  obtain ⟨hrename, rfl⟩ := of_decide_eq_true hkept
  exact ⟨hmem, hrename⟩

/-! ## The rendered pairs -/

def IsDestination (renames : AList fun _ : TrackedPath P => TrackedPath P) (path : TrackedPath P) : Prop :=
  path ∈ renames.entries.map (·.2)

def refreshOrder (ops : RenderOps P) (t : TurnDiffTracker P) : List (TrackedPath P) :=
  ((t.baselineByPath.keys ++ t.currentByPath.keys).insertionSort fun p q =>
    t.displayPath ops p ≤ t.displayPath ops q).destutter (· ≠ ·)

def renderedPairs (ops : RenderOps P) (t : TurnDiffTracker P) : List (TrackedPath P × TrackedPath P) :=
  pairsFrom t.renamePairs [] (t.refreshOrder ops)

def refreshPairs (ops : RenderOps P) (t : TurnDiffTracker P) (pairs : List (TrackedPath P × TrackedPath P))
    (r : Refresh P) : Refresh P :=
  pairs.foldl (fun r pair => t.refreshPair ops r pair.1 pair.2) r

theorem refreshPairs_handled (ops : RenderOps P) (pairs : List (TrackedPath P × TrackedPath P)) (r : Refresh P)
    (handled : List (TrackedPath P)) :
    t.refreshPairs ops pairs { r with handled := handled } = { t.refreshPairs ops pairs r with handled := handled } := by
  induction pairs generalizing r with
  | nil => rfl
  | cons pair pairs ih => exact ih (t.refreshPair ops r pair.1 pair.2)

variable {renames : AList fun _ : TrackedPath P => TrackedPath P}

theorem foldl_refreshPath (ops : RenderOps P) (paths : List (TrackedPath P)) (r : Refresh P) :
    ∃ handled, paths.foldl (t.refreshPath ops renames) r =
      { t.refreshPairs ops (pairsFrom renames r.handled paths) r with handled := handled } := by
  induction paths generalizing r with
  | nil => exact ⟨r.handled, rfl⟩
  | cons path paths ih =>
    rw [foldl_cons, refreshPath, pairsFrom]
    by_cases hhandled : path ∈ r.handled
    · rw [if_pos hhandled, if_pos hhandled]
      exact ih r
    · rw [if_neg hhandled, if_neg hhandled]
      by_cases hdest : path ∈ renames.entries.map (·.2)
      · rw [if_pos hdest, if_pos hdest]
        obtain ⟨handled, heq⟩ := ih { r with handled := path :: r.handled }
        rw [refreshPairs_handled] at heq
        exact ⟨handled, heq⟩
      · rw [if_neg hdest, if_neg hdest]
        cases renames.lookup path with
        | some dest =>
          obtain ⟨handled, heq⟩ := ih { t.refreshPair ops r path dest with handled := dest :: path :: r.handled }
          rw [refreshPairs_handled] at heq
          exact ⟨handled, heq⟩
        | none =>
          obtain ⟨handled, heq⟩ := ih { t.refreshPair ops r path path with handled := path :: r.handled }
          rw [refreshPairs_handled] at heq
          exact ⟨handled, heq⟩

def refreshWith (ops : RenderOps P) (t : TurnDiffTracker P) (pairs : List (TrackedPath P × TrackedPath P)) :
    TurnDiffTracker P :=
  let r := t.refreshPairs ops pairs { previousDiffs := t.renderedDiffs }
  { t with
    renderedDiffs := r.renderedDiffs
    unifiedDiff := if r.aggregated = [] then none else some r.aggregated }

theorem refreshUnifiedDiff_eq (ops : RenderOps P) (t : TurnDiffTracker P) :
    t.refreshUnifiedDiff ops = t.refreshWith ops (t.renderedPairs ops) := by
  obtain ⟨handled, heq⟩ := @foldl_refreshPath _ _ t t.renamePairs ops (t.refreshOrder ops)
    { previousDiffs := t.renderedDiffs }
  rw [refreshOrder] at heq
  rw [refreshUnifiedDiff, heq]
  rfl

theorem mem_pairsFrom {handled paths : List (TrackedPath P)} {left right : TrackedPath P}
    (h : (left, right) ∈ pairsFrom renames handled paths) :
    ¬ IsDestination renames left ∧ (renames.lookup left = some right ∨ (renames.lookup left = none ∧ right = left)) := by
  induction paths generalizing handled with
  | nil => cases h
  | cons path paths ih =>
    rw [pairsFrom] at h
    split at h
    · exact ih h
    · split at h
      · exact ih h
      next hdest =>
        split at h
        next dest hlookup =>
          rcases mem_cons.mp h with heq | h
          · obtain ⟨rfl, rfl⟩ := Prod.mk.inj heq
            exact ⟨hdest, .inl hlookup⟩
          · exact ih h
        next hlookup =>
          rcases mem_cons.mp h with heq | h
          · obtain ⟨rfl, rfl⟩ := Prod.mk.inj heq
            exact ⟨hdest, .inr ⟨hlookup, rfl⟩⟩
          · exact ih h

theorem isDestination_iff {dest : TrackedPath P} :
    IsDestination renames dest ↔ ∃ origin, renames.lookup origin = some dest := by
  rw [IsDestination, mem_map]
  constructor
  · rintro ⟨entry, hentry, rfl⟩
    exact ⟨entry.1, AList.mem_lookup_iff.mpr hentry⟩
  · rintro ⟨origin, hlookup⟩
    exact ⟨⟨origin, dest⟩, AList.mem_lookup_iff.mp hlookup, rfl⟩

/-- A path is the left side of one pair, unless it was handled before or is the destination of a rename. -/
theorem count_fst_pairsFrom (handled paths : List (TrackedPath P)) {path : TrackedPath P}
    (hpath : ¬ IsDestination renames path) :
    ((pairsFrom renames handled paths).map Prod.fst).count path = if path ∈ paths ∧ path ∉ handled then 1 else 0 := by
  induction paths generalizing handled with
  | nil => simp [pairsFrom]
  | cons first paths ih =>
    rw [pairsFrom]
    split
    · grind
    · split
      next hdest =>
        have hne : path ≠ first := fun h => hpath (h ▸ hdest)
        grind
      · split
        next dest hlookup =>
          have hne : path ≠ dest := fun h => hpath (isDestination_iff.mpr ⟨first, h ▸ hlookup⟩)
          grind
        · grind

theorem mem_destutter_cons {α : Type} [DecidableEq α] {a first : α} {l : List α} :
    a ∈ (first :: l).destutter (· ≠ ·) ↔ a ∈ first :: l := by
  rw [destutter_cons']
  induction l generalizing first with
  | nil => rfl
  | cons b l ih =>
    rw [destutter'_cons]
    split
    · rw [mem_cons, ih, ← mem_cons]
    next hsame =>
      rw [ih, not_not.mp hsame]
      simp

theorem mem_refreshOrder (ops : RenderOps P) {path : TrackedPath P} :
    path ∈ t.refreshOrder ops ↔ path ∈ t.baselineByPath ∨ path ∈ t.currentByPath := by
  have hsort : path ∈ (t.baselineByPath.keys ++ t.currentByPath.keys).insertionSort
      (fun p q => t.displayPath ops p ≤ t.displayPath ops q) ↔ path ∈ t.baselineByPath ∨ path ∈ t.currentByPath := by
    rw [mem_insertionSort, mem_append, AList.mem_keys, AList.mem_keys]
  rw [← hsort, refreshOrder]
  cases (t.baselineByPath.keys ++ t.currentByPath.keys).insertionSort
      fun p q => t.displayPath ops p ≤ t.displayPath ops q with
  | nil => rfl
  | cons first paths => exact mem_destutter_cons

theorem count_snd_eq_count_fst {l : List (TrackedPath P × TrackedPath P)} {left right : TrackedPath P}
    (h : ∀ pair ∈ l, pair.2 = right ↔ pair.1 = left) : (l.map Prod.snd).count right = (l.map Prod.fst).count left := by
  rw [count, count, countP_map, countP_map]
  refine countP_congr fun pair hpair => ?_
  simpa using h pair hpair

theorem not_isDestination_of_baseline {path : TrackedPath P} (hmem : path ∈ t.baselineByPath) :
    ¬ IsDestination t.renamePairs path := by
  intro hdest
  obtain ⟨origin, hlookup⟩ := isDestination_iff.mp hdest
  exact (lookup_renamePairs hlookup).2 (.inr (.inr (.inr (.inr hmem))))

theorem count_fst_of_not_isDestination (ops : RenderOps P) {path : TrackedPath P}
    (hdest : ¬ IsDestination t.renamePairs path) (hmem : path ∈ t.baselineByPath ∨ path ∈ t.currentByPath) :
    ((t.renderedPairs ops).map Prod.fst).count path = 1 := by
  rw [renderedPairs, count_fst_pairsFrom _ _ hdest, if_pos ⟨(mem_refreshOrder ops).mpr hmem, not_mem_nil⟩]

/-- Every path with a baseline is the left side of one rendered pair, whatever the maps hold and in whatever order. -/
theorem count_fst_renderedPairs (ops : RenderOps P) {path : TrackedPath P} (hmem : path ∈ t.baselineByPath) :
    ((t.renderedPairs ops).map Prod.fst).count path = 1 :=
  count_fst_of_not_isDestination ops (not_isDestination_of_baseline hmem) (.inl hmem)

/-- Every path with current contents is the right side of one rendered pair. -/
theorem count_snd_renderedPairs (ops : RenderOps P) {path : TrackedPath P} (hmem : path ∈ t.currentByPath) :
    ((t.renderedPairs ops).map Prod.snd).count path = 1 := by
  by_cases hdest : IsDestination t.renamePairs path
  · -- the pair of the origin, which is the only one of this destination
    obtain ⟨origin, hlookup⟩ := isDestination_iff.mp hdest
    obtain ⟨hentry, hrename⟩ := lookup_renamePairs hlookup
    have horigin : origin ∈ t.baselineByPath := by
      by_contra hnot
      exact hrename (.inr (.inr (.inr (.inl hnot))))
    rw [@count_snd_eq_count_fst _ _ _ origin]
    · exact count_fst_renderedPairs ops horigin
    · rintro ⟨left, right⟩ hpair
      obtain ⟨hnot, hright⟩ := mem_pairsFrom hpair
      constructor
      · rintro rfl
        rcases hright with hright | ⟨-, rfl⟩
        · have hentry' := (lookup_renamePairs hright).1
          exact t.originByCurrentPath.nodupKeys.eq_of_mk_mem hentry' hentry
        · exact absurd hdest hnot
      · rintro rfl
        rcases hright with hright | ⟨hnone, -⟩
        · exact Option.some.inj (hright.symm.trans hlookup)
        · rw [hlookup] at hnone
          cases hnone
  · rw [@count_snd_eq_count_fst _ _ _ path]
    · exact count_fst_of_not_isDestination ops hdest (.inr hmem)
    · rintro ⟨left, right⟩ hpair
      obtain ⟨-, hright⟩ := mem_pairsFrom hpair
      rcases hright with hright | ⟨-, rfl⟩
      · constructor
        · rintro rfl
          exact absurd (isDestination_iff.mpr ⟨left, hright⟩) hdest
        · rintro rfl
          exact absurd (.inr (.inl hmem)) (lookup_renamePairs hright).2
      · exact Iff.rfl

end TurnDiffTracker

end Dcode.TurnDiff
