import Dcode.Lib.KeysetPaging
import Dcode.Rollout.ThreadList

/-!
# All threads are listed

Below the scan cap, each traversal pages through its files by their times. So following the cursors lists every thread
once exactly if no page ends between two files with the same time.
-/

namespace Dcode.Rollout

open KeysetPaging List Option PageState

variable {SessionSource : Type}

/-! ## Loops -/

section Loops

variable {α δ σ : Type}

theorem andThen_assoc (r : σ × ControlFlow) (f g : σ → σ × ControlFlow) :
    andThen (andThen r f) g = andThen r fun st => andThen (f st) g := by
  obtain ⟨st, flow⟩ := r
  cases flow <;> rfl

theorem forEach_append (body : σ → α → σ × ControlFlow) (as bs : List α) (st : σ) :
    forEach body (as ++ bs) st = andThen (forEach body as st) (forEach body bs) := by
  induction as generalizing st with
  | nil => rfl
  | cons a as ih =>
    rw [cons_append, forEach, forEach, andThen_assoc]
    congr 1
    funext st
    exact ih st

variable {body : Nat × σ → α → (Nat × σ) × ControlFlow}

/-- How many elements a loop that counts them has counted. -/
theorem forEach_counted (hbody : ∀ st a, (body st a).1.1 = st.1 + 1) (as : List α) (st : Nat × σ) :
    (forEach body as st).1.1 ≤ st.1 + as.length := by
  induction as generalizing st with
  | nil => exact le_refl _
  | cons a as ih =>
    rw [forEach, length_cons]
    have hcount := hbody st a
    generalize body st a = r at hcount
    obtain ⟨st', flow⟩ := r
    change st'.1 = st.1 + 1 at hcount
    cases flow with
    | «continue» =>
      have hle := ih st'
      change (forEach body as st').1.1 ≤ _
      omega
    | «break» =>
      change st'.1 ≤ _
      omega

/-- A loop over directories is a loop over all their files, as long as the scan cap is not reached. -/
theorem forEach_dirs (hbody : ∀ st a, (body st a).1.1 = st.1 + 1)
    {inner : Nat × σ → δ → (Nat × σ) × ControlFlow} {files : δ → List α}
    (hinner : ∀ st d, st.1 + (files d).length < maxScanFiles → inner st d = forEach body (files d) st) (dirs : List δ)
    (st : Nat × σ) (hcap : st.1 + (dirs.flatMap files).length < maxScanFiles) :
    forEach inner dirs st = forEach body (dirs.flatMap files) st := by
  induction dirs generalizing st with
  | nil => rfl
  | cons d dirs ih =>
    rw [flatMap_cons, length_append] at hcap
    rw [flatMap_cons, forEach_append, forEach, hinner st d (by omega)]
    have hcount := forEach_counted hbody (files d) st
    generalize forEach body (files d) st = r at hcount
    obtain ⟨st', flow⟩ := r
    change st'.1 ≤ _ at hcount
    cases flow with
    | «continue» => exact ih st' (by omega)
    | «break» => rfl

end Loops

/-! ## The files that are walked -/

section Walk

variable {σ : Type} {ops : ListOps} {visit : σ → RolloutFile SessionSource → Nat → σ × ControlFlow}

theorem walkFile_counted (st : Nat × σ) (file : RolloutFile SessionSource) : (walkFile visit st file).1.1 = st.1 + 1 := by
  rw [walkFile]
  split <;> rfl

/-- The loops over the directories are one loop over the files. -/
theorem walkRolloutFiles_eq (root : SessionsRoot SessionSource) (visitor : σ)
    (hcap : (nestedFiles ops root).length < maxScanFiles) :
    walkRolloutFiles ops visit root 0 visitor = (forEach (walkFile visit) (nestedFiles ops root) (0, visitor)).1 := by
  have hday : ∀ (st : Nat × σ) (day : Nat × List (DirEntry SessionSource)),
      st.1 + (collectRolloutDayFiles ops day.2).length < maxScanFiles →
      walkDay ops visit st day = forEach (walkFile visit) (collectRolloutDayFiles ops day.2) st := by
    intro st day hlt
    exact if_neg (by omega)
  have hmonth : ∀ (st : Nat × σ) (month : Nat × List (Nat × List (DirEntry SessionSource))),
      st.1 + ((collectDirsDesc month.2).flatMap fun day => collectRolloutDayFiles ops day.2).length < maxScanFiles →
      walkMonth ops visit st month =
        forEach (walkFile visit) ((collectDirsDesc month.2).flatMap fun day => collectRolloutDayFiles ops day.2) st := by
    intro st month hlt
    rw [← forEach_dirs walkFile_counted hday _ _ hlt]
    exact if_neg (by omega)
  have hyear : ∀ (st : Nat × σ) (year : Nat × List (Nat × List (Nat × List (DirEntry SessionSource)))),
      st.1 + ((collectDirsDesc year.2).flatMap fun month =>
        (collectDirsDesc month.2).flatMap fun day => collectRolloutDayFiles ops day.2).length < maxScanFiles →
      walkYear ops visit st year = forEach (walkFile visit) ((collectDirsDesc year.2).flatMap fun month =>
          (collectDirsDesc month.2).flatMap fun day => collectRolloutDayFiles ops day.2) st := by
    intro st year hlt
    rw [← forEach_dirs walkFile_counted hmonth _ _ hlt]
    exact if_neg (by omega)
  rw [walkRolloutFiles, forEach_dirs walkFile_counted hyear _ _ (by rw [zero_add]; exact hcap)]
  rfl

theorem forEach_walkFile {step : σ → RolloutFile SessionSource → σ × ControlFlow}
    (hvisit : ∀ visitor file scanned, scanned < maxScanFiles → visit visitor file scanned = step visitor file)
    (files : List (RolloutFile SessionSource)) (scanned : Nat) (visitor : σ) (hcap : scanned + files.length < maxScanFiles) :
    (forEach (walkFile visit) files (scanned, visitor)).1.2 = (forEach step files visitor).1 := by
  induction files generalizing scanned visitor with
  | nil => rfl
  | cons file files ih =>
    rw [length_cons] at hcap
    have hwalk : walkFile visit (scanned, visitor) file =
        ((scanned + 1, (step visitor file).1), (step visitor file).2) := by
      rw [← hvisit visitor file (scanned + 1) (by omega)]
      exact if_neg (by omega)
    rw [forEach, forEach, hwalk]
    generalize step visitor file = r
    obtain ⟨visitor', flow⟩ := r
    cases flow with
    | «continue» => exact ih (scanned + 1) visitor' (by omega)
    | «break» => rfl

theorem forEach_collectFlatStep {directory : List (DirEntry SessionSource)} (entries : List (DirEntry SessionSource))
    (scanned : Nat) (found : List (RolloutFile SessionSource))
    (hcap : scanned + (entries.filterMap (RolloutFile.fromPath ops directory)).length < maxScanFiles) :
    forEach (collectFlatStep ops directory) entries (scanned, found) =
      ((scanned + (entries.filterMap (RolloutFile.fromPath ops directory)).length,
        found ++ entries.filterMap (RolloutFile.fromPath ops directory)), .continue) := by
  induction entries generalizing scanned found with
  | nil => simp [forEach]
  | cons entry entries ih =>
    have hbelow : ¬ scanned ≥ maxScanFiles := by omega
    rw [forEach, collectFlatStep, if_neg hbelow]
    cases hentry : RolloutFile.fromPath ops directory entry with
    | none =>
      rw [filterMap_cons_none hentry] at hcap ⊢
      exact ih scanned found hcap
    | some file =>
      rw [filterMap_cons_some hentry, length_cons] at hcap ⊢
      refine (ih (scanned + 1) (found ++ [file]) (by omega)).trans ?_
      rw [append_assoc, singleton_append, add_right_comm, add_assoc]

theorem collectFlat_eq (root : SessionsRoot SessionSource) (hcap : (flatFiles ops root).length < maxScanFiles) :
    collectFlat ops root = ((flatFiles ops root).length, flatFiles ops root) := by
  rw [collectFlat, forEach_collectFlatStep _ _ _ (by rw [zero_add]; exact hcap), zero_add]
  rfl

theorem forEach_visitByUpdatedAt (files found : List (RolloutFile SessionSource)) :
    (forEach (fun candidates file => visitByUpdatedAt candidates file 0) files found).1 =
      found ++ files.map RolloutFile.byUpdatedAt := by
  induction files generalizing found with
  | nil => simp [forEach]
  | cons file files ih =>
    refine (ih (found ++ [file.byUpdatedAt])).trans ?_
    rw [append_assoc, singleton_append, map_cons]

end Walk

/-! ## Pages -/

section Pages

variable [DecidableEq SessionSource] (ops : ListOps) (config : ThreadListConfig SessionSource)

def cursorKey : ThreadSortKey → ThreadSortKey
  | .createdAt => .createdAt
  | .updatedAt => .updatedAt
  | .recencyAt => .updatedAt

def listing (sortKey : ThreadSortKey) : Listing (RolloutFile SessionSource) (ThreadItem SessionSource) OffsetDateTime where
  key := RolloutFile.ts
  item? file := threadItem? ops config file.entry
  cursor? item := (buildNextCursor ops [item] (cursorKey sortKey)).map Cursor.ts

variable {ops config} {sortKey : ThreadSortKey} {pageSize : Nat}

/-- Behind the cursor, the loop collects threads until the page is full. -/
theorem forEach_pageStep_passed (files : List (RolloutFile SessionSource)) (items : List (ThreadItem SessionSource))
    (ts : OffsetDateTime) (hroom : items.length ≤ pageSize) :
    (forEach (pageStep ops config pageSize) files ⟨items, ⟨ts, true⟩, false⟩).1 =
      ⟨items ++ (collect (listing ops config sortKey) (pageSize - items.length) files).1, ⟨ts, true⟩,
        (collect (listing ops config sortKey) (pageSize - items.length) files).2⟩ := by
  induction files generalizing items with
  | nil => simp [forEach, collect]
  | cons file files ih =>
    rw [forEach]
    by_cases hfull : items.length = pageSize
    · have hstep : pageStep ops config pageSize ⟨items, ⟨ts, true⟩, false⟩ file = (⟨items, ⟨ts, true⟩, true⟩, .break) :=
        if_pos hfull
      rw [hstep, hfull]
      simp [andThen, collect]
    · obtain ⟨room, hsub⟩ : ∃ room, pageSize - items.length = room + 1 := ⟨pageSize - items.length - 1, by omega⟩
      have hstep : pageStep ops config pageSize ⟨items, ⟨ts, true⟩, false⟩ file =
          (⟨items ++ (threadItem? ops config file.entry).toList, ⟨ts, true⟩, false⟩, .continue) := by
        have hunfull : pageStep ops config pageSize ⟨items, ⟨ts, true⟩, false⟩ file = _ := if_neg hfull
        rw [hunfull]
        cases threadItem? ops config file.entry with
        | none => simp
        | some item => rfl
      rw [hstep, hsub, collect]
      cases hitem : threadItem? ops config file.entry with
      | none =>
        have hnone : (listing ops config sortKey).item? file = none := hitem
        rw [hnone, toList_none, append_nil, ← hsub]
        exact ih items hroom
      | some item =>
        have hsome : (listing ops config sortKey).item? file = some item := hitem
        have hrest : pageSize - (items ++ [item]).length = room := by
          rw [length_append, length_singleton]
          omega
        rw [hsome, toList_some]
        refine (ih (items ++ [item]) (by rw [length_append, length_singleton]; omega)).trans ?_
        rw [hrest, append_assoc, singleton_append]

/-- Before the cursor, the loop skips the files that are not older. -/
theorem forEach_pageStep_start (files : List (RolloutFile SessionSource)) (cursor : Option Cursor) :
    (forEach (pageStep ops config pageSize) files (start cursor)).1.items =
        (collect (listing ops config sortKey) pageSize (after (listing ops config sortKey) (cursor.map Cursor.ts) files)).1 ∧
      (forEach (pageStep ops config pageSize) files (start cursor)).1.moreMatchesAvailable =
        (collect (listing ops config sortKey) pageSize (after (listing ops config sortKey) (cursor.map Cursor.ts) files)).2 := by
  cases cursor with
  | none =>
    have hpassed := @forEach_pageStep_passed _ _ ops config sortKey pageSize files [] 0 (Nat.zero_le _)
    have hstart : start none = (⟨[], ⟨0, true⟩, false⟩ : PageState SessionSource) := rfl
    rw [hstart, hpassed]
    exact ⟨rfl, rfl⟩
  | some cursor =>
    have hstart : start (some cursor) = (⟨[], ⟨cursor.ts, false⟩, false⟩ : PageState SessionSource) := rfl
    rw [map_some, hstart]
    induction files with
    | nil => exact ⟨rfl, rfl⟩
    | cons file files ih =>
      by_cases holder : file.ts < cursor.ts
      · -- from here on the cursor is passed
        have hstep : pageStep ops config pageSize ⟨[], ⟨cursor.ts, false⟩, false⟩ file =
            pageStep ops config pageSize ⟨[], ⟨cursor.ts, true⟩, false⟩ file := by
          have hskip : AnchorState.shouldSkip ⟨cursor.ts, false⟩ file.ts file.id = (⟨cursor.ts, true⟩, false) :=
            if_pos holder
          rw [pageStep, hskip]
          rfl
        have hafter : after (listing ops config sortKey) (some cursor.ts) (file :: files) = file :: files :=
          after_cons_of_lt _ holder _
        have hpassed := @forEach_pageStep_passed _ _ ops config sortKey pageSize (file :: files) [] cursor.ts (Nat.zero_le _)
        rw [forEach] at hpassed
        rw [forEach, hstep, hpassed, hafter]
        exact ⟨rfl, rfl⟩
      · have hstep : pageStep ops config pageSize ⟨[], ⟨cursor.ts, false⟩, false⟩ file =
            (⟨[], ⟨cursor.ts, false⟩, false⟩, .continue) := by
          have hskip : AnchorState.shouldSkip ⟨cursor.ts, false⟩ file.ts file.id = (⟨cursor.ts, false⟩, true) :=
            if_neg holder
          rw [pageStep, hskip]
          rfl
        have hafter : after (listing ops config sortKey) (some cursor.ts) (file :: files) =
            after (listing ops config sortKey) (some cursor.ts) files :=
          after_cons_of_le _ (not_lt.mp holder) _
        rw [forEach, hstep, hafter]
        exact ih

omit [DecidableEq SessionSource] in
/-- The cursors by creation and by change have no id. -/
theorem id_of_buildNextCursor {items : List (ThreadItem SessionSource)} {cursor : Cursor}
    (h : buildNextCursor ops items (cursorKey sortKey) = some cursor) : cursor.id = none := by
  obtain ⟨last, -, h⟩ := bind_eq_some_iff.mp h
  obtain ⟨fileName, -, h⟩ := bind_eq_some_iff.mp h
  obtain ⟨⟨createdTs, id⟩, -, h⟩ := bind_eq_some_iff.mp h
  cases sortKey with
  | createdAt =>
    obtain rfl := some.inj h
    rfl
  | updatedAt | recencyAt =>
    obtain ⟨ts, -, rfl⟩ := map_eq_some_iff.mp h
    rfl

/-- The cursor behind some threads is the one behind the last of them, and it has no id. -/
theorem buildNextCursor_eq (items : List (ThreadItem SessionSource)) : buildNextCursor ops items (cursorKey sortKey) =
      (items.getLast?.bind (listing ops config sortKey).cursor?).map fun ts => ⟨ts, none⟩ := by
  cases hlast : items.getLast? with
  | none => simp [buildNextCursor, hlast]
  | some last =>
    have hsame : buildNextCursor ops items (cursorKey sortKey) = buildNextCursor ops [last] (cursorKey sortKey) := by
      simp [buildNextCursor, hlast]
    rw [hsame]
    cases hcursor : buildNextCursor ops [last] (cursorKey sortKey) with
    | none => simp [listing, hcursor]
    | some cursor =>
      simp [listing, hcursor, ← id_of_buildNextCursor hcursor]

omit [DecidableEq SessionSource] in
def ThreadsPage.followed (page : ThreadsPage SessionSource) : List (ThreadItem SessionSource) × Option Cursor :=
  (page.items, page.nextCursor)

/-- The page that a traversal makes of its files below the scan cap. -/
theorem finish_forEach_pageStep (sortKey : ThreadSortKey) {scanned : Nat} (hcap : scanned < maxScanFiles)
    (files : List (RolloutFile SessionSource)) (cursor : Option Cursor) :
    ((forEach (pageStep ops config pageSize) files (start cursor)).1.finish ops (cursorKey sortKey) scanned).followed =
      (page (listing ops config sortKey) pageSize files (cursor.map Cursor.ts)).map id
        (Option.map fun ts => ⟨ts, none⟩) := by
  obtain ⟨hitems, hmore⟩ := @forEach_pageStep_start _ _ ops config sortKey pageSize files cursor
  have hreached : decide (scanned ≥ maxScanFiles) = false := decide_eq_false (by omega)
  simp only [finish, page, Prod.map, id]
  rw [hreached, Bool.false_and, Bool.or_false, hitems, hmore, @buildNextCursor_eq _ _ _ config]
  split <;> rfl

omit [DecidableEq SessionSource] in
theorem walkRolloutFiles_visitByUpdatedAt (root : SessionsRoot SessionSource)
    (hcap : (nestedFiles ops root).length < maxScanFiles) :
    (walkRolloutFiles ops visitByUpdatedAt root 0 []).1 < maxScanFiles ∧
      (walkRolloutFiles ops visitByUpdatedAt root 0 []).2 = (nestedFiles ops root).map RolloutFile.byUpdatedAt := by
  have hsum : 0 + (nestedFiles ops root).length < maxScanFiles := by omega
  rw [walkRolloutFiles_eq root _ hcap]
  constructor
  · exact lt_of_le_of_lt (forEach_counted walkFile_counted _ _) hsum
  · have hvisit : ∀ (candidates : List (RolloutFile SessionSource)) (file : RolloutFile SessionSource) (scanned : Nat),
        scanned < maxScanFiles → visitByUpdatedAt candidates file scanned = visitByUpdatedAt candidates file 0 :=
      fun _ _ _ _ => rfl
    rw [forEach_walkFile hvisit _ _ _ hsum]
    exact forEach_visitByUpdatedAt _ []

def threadsPage (ops : ListOps) (root : SessionsRoot SessionSource) (pageSize : Nat) (sortKey : ThreadSortKey)
    (config : ThreadListConfig SessionSource) (cursor : Option Cursor) :
    List (ThreadItem SessionSource) × Option Cursor :=
  (getThreadsInRoot ops (some root) pageSize cursor sortKey config).followed

/-- Every traversal pages through the listed files by their times. -/
theorem threadsPage_eq (root : SessionsRoot SessionSource) (hcap : (rolloutFiles ops root config.layout).length < maxScanFiles)
    (cursor : Option Cursor) :
    threadsPage ops root pageSize sortKey config cursor =
      (page (listing ops config sortKey) pageSize (listedFiles ops root sortKey config.layout) (cursor.map Cursor.ts)).map id
        (Option.map fun ts => ⟨ts, none⟩) := by
  cases hlayout : config.layout with
  | nestedByDate =>
    rw [hlayout] at hcap
    have hpage : getThreadsInRoot ops (some root) pageSize cursor sortKey config =
        traverseDirectoriesForPaths ops root pageSize cursor sortKey config := by
      simp [getThreadsInRoot, hlayout]
    have hsum : 0 + (nestedFiles ops root).length < maxScanFiles := by
      rw [zero_add]
      exact hcap
    have hupdated := walkRolloutFiles_visitByUpdatedAt root hcap
    rw [threadsPage, hpage]
    cases sortKey with
    | createdAt =>
      have hvisit : ∀ (st : PageState SessionSource) (file : RolloutFile SessionSource) (scanned : Nat),
          scanned < maxScanFiles →
          visitByCreatedAt ops config pageSize st file scanned = pageStep ops config pageSize st file := by
        intro st file scanned hlt
        have hbelow : decide (scanned ≥ maxScanFiles) = false := decide_eq_false (by omega)
        rw [visitByCreatedAt, hbelow]
        rfl
      simp only [traverseDirectoriesForPaths, traverseDirectoriesForPathsCreated]
      rw [walkRolloutFiles_eq root _ hcap, forEach_walkFile hvisit _ _ _ hsum]
      exact finish_forEach_pageStep .createdAt (lt_of_le_of_lt (forEach_counted walkFile_counted _ (0, _)) hsum) _ cursor
    | updatedAt =>
      simp only [traverseDirectoriesForPaths, traverseDirectoriesForPathsUpdated]
      rw [hupdated.2]
      exact finish_forEach_pageStep .updatedAt hupdated.1 _ cursor
    | recencyAt =>
      simp only [traverseDirectoriesForPaths, traverseDirectoriesForPathsUpdated]
      rw [hupdated.2]
      exact finish_forEach_pageStep .recencyAt hupdated.1 _ cursor
  | flat =>
    rw [hlayout] at hcap
    have hpage : getThreadsInRoot ops (some root) pageSize cursor sortKey config =
        traverseFlatPaths ops root pageSize cursor sortKey config := by
      simp [getThreadsInRoot, hlayout]
    have hfound := collectFlat_eq root hcap
    rw [threadsPage, hpage]
    cases sortKey with
    | createdAt =>
      simp only [traverseFlatPaths, traverseFlatPathsCreated, hfound]
      exact finish_forEach_pageStep .createdAt hcap _ cursor
    | updatedAt =>
      simp only [traverseFlatPaths, traverseFlatPathsUpdated, hfound]
      exact finish_forEach_pageStep .updatedAt hcap _ cursor
    | recencyAt =>
      simp only [traverseFlatPaths, traverseFlatPathsUpdated, hfound]
      exact finish_forEach_pageStep .recencyAt hcap _ cursor

/-! ## Every thread once -/

omit [DecidableEq SessionSource] in
theorem map_filterMap_sublist {α β γ : Type} {f : α → Option β} {p : β → γ} {q : α → γ}
    (h : ∀ a b, f a = some b → p b = q a) (as : List α) : ((as.filterMap f).map p).Sublist (as.map q) := by
  induction as with
  | nil => exact Sublist.refl _
  | cons a as ih =>
    cases ha : f a with
    | none =>
      rw [filterMap_cons_none ha]
      exact ih.cons _
    | some b =>
      rw [filterMap_cons_some ha, map_cons, map_cons, h a b ha]
      exact ih.cons_cons _

variable {file : RolloutFile SessionSource} {directory : List (DirEntry SessionSource)}

omit [DecidableEq SessionSource] in
theorem entry_of_fromPath {entry : DirEntry SessionSource} (h : RolloutFile.fromPath ops directory entry = some file) :
    file.entry = entry := by
  obtain ⟨fileName, -, h⟩ := bind_eq_some_iff.mp h
  obtain ⟨plainFileName, -, h⟩ := bind_eq_some_iff.mp h
  split at h
  · cases h
  · obtain ⟨⟨ts, id⟩, -, h⟩ := bind_eq_some_iff.mp h
    obtain rfl := some.inj h
    rfl

theorem path_of_threadItem? {file : DirEntry SessionSource} {item : ThreadItem SessionSource}
    (h : threadItem? ops config file = some item) : item.path = file.path := by
  rw [threadItem?, buildThreadItem] at h
  split at h
  · cases h
  · split at h
    · cases h
    · split at h
      · cases h
      · split at h
        · obtain rfl := some.inj h
          rfl
        · cases h

omit [DecidableEq SessionSource] in
theorem subperm_flatMap_collectDirsDesc {α β : Type} {f g : Nat × α → List β} (h : ∀ dir, (f dir).Subperm (g dir))
    (dirs : List (Nat × α)) : ((collectDirsDesc dirs).flatMap f).Subperm (dirs.flatMap g) := by
  have hsorted : ((collectDirsDesc dirs).flatMap f).Perm (dirs.flatMap f) :=
    (perm_insertionSort _ dirs).flatMap_right f
  refine hsorted.subperm.trans ?_
  clear hsorted
  induction dirs with
  | nil => exact Subperm.refl _
  | cons dir dirs ih =>
    exact (h dir).append ih

omit [DecidableEq SessionSource] in
theorem nodup_rolloutFiles (root : SessionsRoot SessionSource) (layout : ThreadListLayout) :
    ((rolloutFiles ops root layout).map fun file => file.entry.path).Nodup := by
  have hdirectory : ∀ directory : List (DirEntry SessionSource),
      ((directory.filterMap (RolloutFile.fromPath ops directory)).map fun file => file.entry.path).Sublist
        (directory.map DirEntry.path) := fun directory =>
    map_filterMap_sublist (fun _ _ h => congrArg DirEntry.path (entry_of_fromPath h)) directory
  cases layout with
  | nestedByDate =>
    have hsubperm : ((nestedFiles ops root).map fun file => file.entry.path).Subperm
        ((root.years.flatMap fun year => year.2.flatMap fun month => month.2.flatMap fun day => day.2).map
          DirEntry.path) := by
      rw [nestedFiles]
      simp only [map_flatMap]
      refine subperm_flatMap_collectDirsDesc (fun year => ?_) _
      refine subperm_flatMap_collectDirsDesc (fun month => ?_) _
      refine subperm_flatMap_collectDirsDesc (fun day => ?_) _
      have hsorted := (perm_insertionSort Newer (day.2.filterMap (RolloutFile.fromPath ops day.2))).map
        fun file => file.entry.path
      exact hsorted.subperm.trans (hdirectory day.2).subperm
    obtain ⟨paths, hperm, hsublist⟩ := hsubperm
    exact hperm.nodup_iff.mp (root.nodup_nested.sublist hsublist)
  | flat => exact root.nodup_files.sublist (hdirectory root.files)

omit [DecidableEq SessionSource] in
theorem nodup_listedFiles (root : SessionsRoot SessionSource) (layout : ThreadListLayout) :
    ((listedFiles ops root sortKey layout).map fun file => file.entry.path).Nodup := by
  have hfiles := @nodup_rolloutFiles _ ops root layout
  have hupdated : ((((rolloutFiles ops root layout).map RolloutFile.byUpdatedAt).insertionSort Newer).map
      fun file => file.entry.path).Nodup := by
    have hsorted := (perm_insertionSort Newer ((rolloutFiles ops root layout).map RolloutFile.byUpdatedAt)).map
      fun file => file.entry.path
    refine hsorted.nodup_iff.mpr ?_
    rw [List.map_map]
    exact hfiles
  cases sortKey with
  | createdAt =>
    cases layout with
    | nestedByDate => exact hfiles
    | flat =>
      have hsorted := (perm_insertionSort Newer (flatFiles ops root)).map fun file => file.entry.path
      exact hsorted.nodup_iff.mpr hfiles
  | updatedAt | recencyAt =>
    cases layout with
    | nestedByDate | flat => exact hupdated

def listedThreads (ops : ListOps) (root : SessionsRoot SessionSource) (sortKey : ThreadSortKey)
    (config : ThreadListConfig SessionSource) : List (ThreadItem SessionSource) :=
  (listedFiles ops root sortKey config.layout).filterMap fun file => threadItem? ops config file.entry

theorem nodup_listedThreads (root : SessionsRoot SessionSource) : (listedThreads ops root sortKey config).Nodup := by
  refine Nodup.of_map ThreadItem.path ?_
  have hsublist := map_filterMap_sublist
    (fun (file : RolloutFile SessionSource) item (h : threadItem? ops config file.entry = some item) => path_of_threadItem? h)
    (listedFiles ops root sortKey config.layout)
  exact (nodup_listedFiles root config.layout).sublist hsublist

/-- Following the cursors from the first page on lists every matching thread once and in order exactly if every full page is
resumed where it ends. -/
theorem threads_followed_iff (root : SessionsRoot SessionSource) (hsize : 0 < pageSize)
    (hcap : (rolloutFiles ops root config.layout).length < maxScanFiles) :
    Follows (threadsPage ops root pageSize sortKey config) none (listedThreads ops root sortKey config) ↔
      Resumed (listing ops config sortKey) pageSize [] (listedFiles ops root sortKey config.layout) := by
  obtain ⟨room, rfl⟩ : ∃ room, pageSize = room + 1 := ⟨pageSize - 1, by omega⟩
  rw [follows_map_iff (fun _ => rfl) (threadsPage_eq root hcap) none]
  exact follows_iff (nodup_listedThreads root)

/-! ## Distinct times -/

theorem stripSuffix_zst_of_jsonl {name : Str} (h : ".jsonl".toList.isSuffixOf name) :
    stripSuffix ".zst".toList name = none := by
  obtain ⟨stem, rfl⟩ := isSuffixOf_iff_suffix.mp h
  rw [stripSuffix, reverse_append]
  rfl

theorem parseTimestampUuidFromFilename_plain {name plain : Str} (h : parseRolloutFileName name = some plain) :
    parseTimestampUuidFromFilename ops plain = parseTimestampUuidFromFilename ops name := by
  have hplain : parseRolloutFileName plain = some plain := by
    rw [parseRolloutFileName] at h
    split at h
    next hname =>
      obtain rfl := some.inj h
      have hends := stripSuffix_zst_of_jsonl (Bool.and_eq_true_iff.mp hname).2
      rw [parseRolloutFileName, hends]
      exact if_pos hname
    · cases h
  rw [parseTimestampUuidFromFilename, parseTimestampUuidFromFilename, h, hplain]

/-- The cursor behind the thread of a file is the time in the file's name. -/
theorem cursor?_of_fromPath
    {item : ThreadItem SessionSource} (hfile : RolloutFile.fromPath ops directory file.entry = some file)
    (hitem : threadItem? ops config file.entry = some item) :
    (listing ops config .createdAt).cursor? item = some file.ts := by
  obtain ⟨fileName, hname, h⟩ := bind_eq_some_iff.mp hfile
  obtain ⟨plainFileName, hplain, h⟩ := bind_eq_some_iff.mp h
  split at h
  · cases h
  · obtain ⟨⟨ts, id⟩, hparse, h⟩ := bind_eq_some_iff.mp h
    rw [parseTimestampUuidFromFilename_plain hplain] at hparse
    rw [← path_of_threadItem? hitem] at hname
    rw [← some.inj h]
    simp [listing, buildNextCursor, cursorKey, hname, hparse]

variable {root : SessionsRoot SessionSource}

omit [DecidableEq SessionSource] in
theorem exists_fromPath_of_mem {layout : ThreadListLayout} (h : file ∈ rolloutFiles ops root layout) :
    ∃ directory, RolloutFile.fromPath ops directory file.entry = some file := by
  have hfound : ∀ directory : List (DirEntry SessionSource),
      file ∈ directory.filterMap (RolloutFile.fromPath ops directory) →
      RolloutFile.fromPath ops directory file.entry = some file := by
    intro directory hmem
    obtain ⟨entry, -, hentry⟩ := mem_filterMap.mp hmem
    rw [entry_of_fromPath hentry]
    exact hentry
  cases layout with
  | nestedByDate =>
    obtain ⟨year, -, h⟩ := mem_flatMap.mp h
    obtain ⟨month, -, h⟩ := mem_flatMap.mp h
    obtain ⟨day, -, h⟩ := mem_flatMap.mp h
    exact ⟨day.2, hfound day.2 ((mem_insertionSort _).mp h)⟩
  | flat => exact ⟨root.files, hfound root.files h⟩

omit [DecidableEq SessionSource] in
theorem mem_listedFiles_createdAt {layout : ThreadListLayout} :
    file ∈ listedFiles ops root .createdAt layout ↔ file ∈ rolloutFiles ops root layout := by
  cases layout with
  | nestedByDate => exact Iff.rfl
  | flat => exact mem_insertionSort _

/-- If no two rollout files have the same time, and they are listed from the newest to the oldest, every page by the time of
creation is resumed. -/
theorem resumed_of_times
    (htimes : (listedFiles ops root .createdAt config.layout).Pairwise fun newer older => older.ts < newer.ts) :
    Resumed (listing ops config .createdAt) pageSize [] (listedFiles ops root .createdAt config.layout) := by
  refine resumed_of_pairwise_lt htimes ?_
  intro file hfile item hitem
  obtain ⟨directory, hfrom⟩ := exists_fromPath_of_mem (mem_listedFiles_createdAt.mp hfile)
  exact cursor?_of_fromPath hfrom hitem

end Pages

/-! ## Two files of one second -/

section Instances

/-- The two seconds of the files, as in file names and in RFC 3339. -/
def seconds : List (Str × Str × OffsetDateTime) :=
  [("2025-01-02T03-04-05".toList, "2025-01-02T03:04:05Z".toList, 1735787045000000000),
    ("2025-01-02T03-04-06".toList, "2025-01-02T03:04:06Z".toList, 1735787046000000000)]

def firstId : Str := "0194252e-1d35-7e21-9c8f-0a1b2c3d4e5f".toList

def secondId : Str := "0194252e-1d35-7e21-9c8f-0a1b2c3d4e60".toList

/-- The crates on the texts of these files. -/
def secondsOps : ListOps where
  format ts := (seconds.find? (·.2.2 = ts)).map (·.2.1)
  parse text := (seconds.find? (·.2.1 = text)).map (·.2.2)
  parseDateTime text := (seconds.find? (·.1 = text)).map (·.2.2)
  parseUuid text :=
    if text = firstId then some 0x0194252e1d357e219c8f0a1b2c3d4e5f
    else if text = secondId then some 0x0194252e1d357e219c8f0a1b2c3d4e60
    else none
  pathsMatchAfterNormalization left right := left == right

def rolloutName (second : String) (id : Str) : Str :=
  "rollout-".toList ++ (second.toList ++ '-' :: (id ++ ".jsonl".toList))

def olderName : Str := rolloutName "2025-01-02T03-04-05" firstId

def newerName : Str := rolloutName "2025-01-02T03-04-06" firstId

def sameSecondName : Str := rolloutName "2025-01-02T03-04-06" secondId

def rolloutEntry (name : Str) : DirEntry Unit where
  path := ["sessions".toList, name]
  modified := none
  head := { sawSessionMeta := true, preview := some "hello".toList }

def twoFiles (first second : Str) (h : first ≠ second) : SessionsRoot Unit where
  years := [(2025, [(1, [(2, [rolloutEntry first, rolloutEntry second])])])]
  files := []
  nodup_nested := by
    change [(rolloutEntry first).path, (rolloutEntry second).path].Nodup
    refine List.nodup_cons.mpr ⟨fun hmem => h ?_, nodup_singleton _⟩
    have hpath := List.mem_singleton.mp hmem
    exact (cons.inj (cons.inj hpath).2).1
  nodup_files := nodup_nil

def twoSeconds : SessionsRoot Unit := twoFiles newerName olderName (by decide)

def oneSecond : SessionsRoot Unit := twoFiles newerName sameSecondName (by decide)

def allThreads : ThreadListConfig Unit where
  allowedSources := []
  modelProviders := none
  cwdFilters := none
  defaultProvider := "openai".toList
  layout := .nestedByDate

end Instances

/-- Two files of different seconds are listed on two pages. -/
theorem threads_followed_two_seconds :
    Follows (threadsPage secondsOps twoSeconds 1 .createdAt allThreads) none
      (listedThreads secondsOps twoSeconds .createdAt allThreads) := by
  refine (threads_followed_iff _ Nat.one_pos (by decide +kernel)).mpr (resumed_of_times ?_)
  decide +kernel

/-- Of two files of one second, the second page does not list the other one. -/
theorem threads_not_followed_one_second :
    ¬ Follows (threadsPage secondsOps oneSecond 1 .createdAt allThreads) none
      (listedThreads secondsOps oneSecond .createdAt allThreads) := by
  intro hfollows
  have hlisted : listedThreads secondsOps oneSecond .createdAt allThreads =
      (threadsPage secondsOps oneSecond 1 .createdAt allThreads none).1 ++
        (threadItem? secondsOps allThreads (rolloutEntry newerName)).toList := by
    decide +kernel
  have hfirst : (threadsPage secondsOps oneSecond 1 .createdAt allThreads none).2 = some ⟨1735787046000000000, none⟩ := by
    decide +kernel
  have hsecond : threadsPage secondsOps oneSecond 1 .createdAt allThreads (some ⟨1735787046000000000, none⟩) = ([], none) := by
    decide +kernel
  rw [hlisted, follows_of_some hfirst, follows_of_none (by rw [hsecond])] at hfollows
  exact absurd hfollows (by decide +kernel)

end Dcode.Rollout
