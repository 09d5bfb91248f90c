import Dcode.TurnDiff.Tracker

/-!
# Proofs: the tracker is an exact net account

Path by path: either both maps are right about the path, or the path is in neither and holds what it held
when the turn began. A change captures a baseline for each path it touches, which is then right whatever
the maps said before; the rest of the change sets what the path holds now.
-/

namespace Dcode.TurnDiff

open ApplyPatch AList Function

variable {P : Type} [DecidableEq P]

namespace TurnDiffTracker

/-! ## What the maps say of a path -/

def baseline (t : TurnDiffTracker P) (q : TrackedPath P) : Option FileData :=
  (t.baselineByPath.lookup q).map fun tracked => .text tracked.content

def current (t : TurnDiffTracker P) (q : TrackedPath P) : Option FileData :=
  (t.currentByPath.lookup q).map fun tracked => .text tracked.content

def Tracks (t : TurnDiffTracker P) (q : TrackedPath P) : Prop :=
  q ∈ t.baselineByPath ∨ q ∈ t.currentByPath

variable {t : TurnDiffTracker P} {q : TrackedPath P}

theorem baseline_eq_none : t.baseline q = none ↔ q ∉ t.baselineByPath := by
  unfold baseline
  rw [Option.map_eq_none_iff, lookup_eq_none]

theorem current_eq_none : t.current q = none ↔ q ∉ t.currentByPath := by
  unfold current
  rw [Option.map_eq_none_iff, lookup_eq_none]

theorem baseline_insertBaseline (t : TurnDiffTracker P) (p : TrackedPath P) (content : Str) :
    (t.insertBaseline p content).baseline = update t.baseline p (some (.text content)) := by
  funext q
  unfold baseline insertBaseline
  by_cases hq : q = p
  · subst hq
    simp
  · simp [hq]

theorem current_insertCurrent (t : TurnDiffTracker P) (p : TrackedPath P) (content : Str) :
    (t.insertCurrent p content).current = update t.current p (some (.text content)) := by
  funext q
  unfold current insertCurrent
  by_cases hq : q = p
  · subst hq
    simp
  · simp [hq]

theorem current_erase (t : TurnDiffTracker P) (p : TrackedPath P)
    (origins : AList fun _ : TrackedPath P => TrackedPath P) :
    ({ t with originByCurrentPath := origins, currentByPath := t.currentByPath.erase p } :
      TurnDiffTracker P).current = update t.current p none := by
  funext q
  unfold current
  by_cases hq : q = p
  · subst hq
    simp
  · simp [hq]

/-! ## The account -/

/-- The tracker is right about every tracked path, and no other path has changed. -/
structure NetAccount (start now : Contents (TrackedPath P)) (t : TurnDiffTracker P) : Prop where
  baseline : ∀ q, t.Tracks q → t.baseline q = start q
  current : ∀ q, t.Tracks q → t.current q = now q
  untracked : ∀ q, ¬ t.Tracks q → now q = start q

def Accounted (baseline current start now : Option FileData) : Prop :=
  (baseline = start ∧ current = now) ∨ (baseline = none ∧ current = none ∧ now = start)

variable {start now : Contents (TrackedPath P)}

theorem netAccount_iff : NetAccount start now t ↔ ∀ q, Accounted (t.baseline q) (t.current q) (start q) (now q) := by
  constructor
  · intro h q
    by_cases hq : t.Tracks q
    · exact Or.inl ⟨h.baseline q hq, h.current q hq⟩
    · obtain ⟨hb, hc⟩ := not_or.mp hq
      exact Or.inr ⟨baseline_eq_none.mpr hb, current_eq_none.mpr hc, h.untracked q hq⟩
  · intro h
    refine ⟨fun q hq => ?_, fun q hq => ?_, fun q hq => ?_⟩
    · rcases h q with ⟨hb, -⟩ | ⟨hb, hc, -⟩
      · exact hb
      · exact absurd hq (not_or.mpr ⟨baseline_eq_none.mp hb, current_eq_none.mp hc⟩)
    · rcases h q with ⟨-, hc⟩ | ⟨hb, hc, -⟩
      · exact hc
      · exact absurd hq (not_or.mpr ⟨baseline_eq_none.mp hb, current_eq_none.mp hc⟩)
    · rcases h q with ⟨hb, hc⟩ | ⟨-, -, hnow⟩
      · obtain ⟨hnb, hnc⟩ := not_or.mp hq
        rw [← hb, ← hc, baseline_eq_none.mpr hnb, current_eq_none.mpr hnc]
      · exact hnow

theorem captureBaseline_current (t : TurnDiffTracker P) (p : TrackedPath P) (content : Option Str) :
    (t.captureBaseline p content).current = t.current := by
  unfold captureBaseline
  split
  · cases content <;> rfl
  · rfl

/-- A captured baseline is right, given that the change records what it replaces. -/
theorem captureBaseline_baseline {p : TrackedPath P} {content : Option Str} {start : Option FileData}
    (htracked : t.Tracks p → t.baseline p = start) (huntracked : ¬ t.Tracks p → start = content.map .text) :
    (t.captureBaseline p content).baseline = update t.baseline p start := by
  unfold captureBaseline
  split
  next hp =>
    have hstart := huntracked (not_or.mpr ⟨hp.2, hp.1⟩)
    cases content with
    | none =>
      rw [hstart, Option.map_none, ← baseline_eq_none.mpr hp.2, update_eq_self]
    | some content =>
      rw [baseline_insertBaseline, hstart]
      rfl
  next hp =>
    have ht : t.Tracks p := by
      by_contra hn
      obtain ⟨hb, hc⟩ := not_or.mp hn
      exact hp ⟨hc, hb⟩
    rw [← htracked ht, update_eq_self]

theorem tracks_captureBaseline (t : TurnDiffTracker P) (p : TrackedPath P) (content : Str) :
    (t.captureBaseline p (some content)).Tracks p := by
  unfold captureBaseline
  split
  · exact Or.inl ((mem_insert _).mpr (Or.inl rfl))
  next hp =>
    by_contra hn
    obtain ⟨hb, hc⟩ := not_or.mp hn
    exact hp ⟨hc, hb⟩

theorem tracks_captureBaseline_of_ne (t : TurnDiffTracker P) {p : TrackedPath P} (hq : q ≠ p) (content : Option Str) :
    (t.captureBaseline p content).Tracks q ↔ t.Tracks q := by
  unfold captureBaseline
  split
  · cases content with
    | none => rfl
    | some content =>
      unfold Tracks insertBaseline
      simp [hq]
  · rfl

/-- Once the baseline of a path is right, setting what the path holds keeps the account. -/
theorem accounted_update {baseline current : Contents (TrackedPath P)}
    (h : ∀ q, Accounted (baseline q) (current q) (start q) (now q)) (p : TrackedPath P) (data : Option FileData)
    (q : TrackedPath P) :
    Accounted (update baseline p (start p) q) (update current p data q) (start q) (update now p data q) := by
  by_cases hq : q = p
  · subst hq
    exact Or.inl ⟨by simp, by simp⟩
  · simpa [hq] using h q

/-! ## Changes -/

section

variable {p : TrackedPath P}

theorem NetAccount.capture (h : NetAccount start now t) {content : Option Str} (hnow : now p = content.map .text) :
    (t.captureBaseline p content).baseline = update t.baseline p (start p) := by
  apply captureBaseline_baseline (h.baseline p)
  intro hp
  rw [← h.untracked p hp, hnow]

theorem NetAccount.applyAdd (h : NetAccount start now t) {overwritten : Option Str}
    (hnow : now p = overwritten.map .text) (content : Str) :
    NetAccount start (update now p (some (.text content))) (t.applyAdd p content overwritten) := by
  rw [netAccount_iff]
  have hbase : (t.applyAdd p content overwritten).baseline = update t.baseline p (start p) :=
    NetAccount.capture (t := { t with originByCurrentPath := t.originByCurrentPath.erase p })
      ⟨h.baseline, h.current, h.untracked⟩ hnow
  have hcur : (t.applyAdd p content overwritten).current = update t.current p (some (.text content)) := by
    unfold TurnDiffTracker.applyAdd
    rw [current_insertCurrent, captureBaseline_current]
    rfl
  rw [hbase, hcur]
  exact accounted_update (netAccount_iff.mp h) p _

theorem applyDelete_eq (t : TurnDiffTracker P) (p : TrackedPath P) (content : Str) : t.applyDelete p content =
      { t.captureBaseline p (some content) with
        originByCurrentPath := t.originByCurrentPath.erase p
        currentByPath := t.currentByPath.erase p } := by
  unfold applyDelete captureBaseline
  simp only [lookup_eq_none]
  split
  · rfl
  · rfl

section

variable (h : NetAccount start now t)

include h

theorem NetAccount.applyDelete {content : Str} (hnow : now p = some (.text content)) :
    NetAccount start (update now p none) (t.applyDelete p content) := by
  rw [netAccount_iff, applyDelete_eq]
  have hbase : (t.captureBaseline p (some content)).baseline = update t.baseline p (start p) := h.capture hnow
  intro q
  have hq := accounted_update (netAccount_iff.mp h) p none q
  rw [← hbase, ← current_erase t p (t.originByCurrentPath.erase p)] at hq
  exact hq

theorem NetAccount.applyMove {dest : TrackedPath P} {old : Str} {overwritten : Option Str}
    (hold : now p = some (.text old)) (hdest : now dest = overwritten.map .text) (new : Str) :
    NetAccount start (update (update now p none) dest (some (.text new)))
      ((t.captureBaseline p (some old)).applyMove p dest overwritten new) := by
  rw [netAccount_iff]
  have hfirst : (t.captureBaseline p (some old)).baseline = update t.baseline p (start p) :=
    h.capture hold
  have hbase : ((t.captureBaseline p (some old)).applyMove p dest overwritten new).baseline =
      update (update t.baseline p (start p)) dest (start dest) := by
    rw [← hfirst]
    apply captureBaseline_baseline
    · intro htracked
      rw [hfirst]
      by_cases hd : dest = p
      · simp [hd]
      · rw [update_of_ne hd]
        exact h.baseline dest ((tracks_captureBaseline_of_ne t hd _).mp htracked)
    · intro huntracked
      by_cases hd : dest = p
      · exact absurd (hd ▸ tracks_captureBaseline t p old) huntracked
      · rw [← h.untracked dest fun htracked => huntracked ((tracks_captureBaseline_of_ne t hd _).mpr htracked), hdest]
  have hcur : ((t.captureBaseline p (some old)).applyMove p dest overwritten new).current =
      update (update t.current p none) dest (some (.text new)) := by
    show (insertCurrent _ dest new).current = _
    rw [current_insertCurrent, current_erase, captureBaseline_current, captureBaseline_current]
  rw [hbase, hcur]
  exact accounted_update (accounted_update (netAccount_iff.mp h) p none) dest _

theorem NetAccount.applyRewrite {old : Str} (hold : now p = some (.text old)) (new : Str) :
    NetAccount start (update now p (some (.text new))) ((t.captureBaseline p (some old)).insertCurrent p new) := by
  rw [netAccount_iff]
  have hbase : ((t.captureBaseline p (some old)).insertCurrent p new).baseline =
      update t.baseline p (start p) := h.capture hold
  rw [hbase, current_insertCurrent, captureBaseline_current]
  exact accounted_update (netAccount_iff.mp h) p _

end

end

/-! ## Deltas -/

def inEnvironment (environmentId : Str) (change : AppliedPatchChange P) : AppliedPatchChange (TrackedPath P) where
  path := ⟨environmentId, change.path⟩
  change := match change.change with
    | .add content overwrittenContent => .add content overwrittenContent
    | .delete content => .delete content
    | .update movePath oldContent overwrittenMoveContent newContent =>
      .update (movePath.map (⟨environmentId, ·⟩)) oldContent overwrittenMoveContent newContent

theorem NetAccount.applyChange (h : NetAccount start now t) (environmentId : Str) (change : AppliedPatchChange P)
    (hrec : (inEnvironment environmentId change).Records now) :
    NetAccount start ((inEnvironment environmentId change).replay now) (t.applyChange environmentId change) := by
  obtain ⟨path, change⟩ := change
  cases change with
  | add content overwritten => exact h.applyAdd hrec content
  | delete content => exact h.applyDelete hrec
  | update movePath old overwritten new =>
    cases movePath with
    | none => exact h.applyRewrite hrec.1 new
    | some dest => exact h.applyMove hrec.1 hrec.2 new

theorem replayChanges_append (changes changes' : List (AppliedPatchChange P)) (c : Contents P) :
    replayChanges (changes ++ changes') c = replayChanges changes' (replayChanges changes c) :=
  List.foldl_append

theorem recordsAll_append {changes changes' : List (AppliedPatchChange P)} {c : Contents P} :
    RecordsAll (changes ++ changes') c ↔ RecordsAll changes c ∧ RecordsAll changes' (replayChanges changes c) := by
  induction changes generalizing c with
  | nil => simp [RecordsAll, replayChanges]
  | cons first changes ih =>
    simp only [List.cons_append, RecordsAll, ih, and_assoc]
    rfl

def turnChanges (deltas : List (Str × AppliedPatchDelta P)) : List (AppliedPatchChange (TrackedPath P)) :=
  deltas.flatMap fun delta => delta.2.changes.map (inEnvironment delta.1)

theorem NetAccount.applyChanges (h : NetAccount start now t) (environmentId : Str)
    (changes : List (AppliedPatchChange P)) (hrec : RecordsAll (changes.map (inEnvironment environmentId)) now) :
    NetAccount start (replayChanges (changes.map (inEnvironment environmentId)) now)
      (changes.foldl (TurnDiffTracker.applyChange environmentId) t) := by
  induction changes generalizing t now with
  | nil => exact h
  | cons change changes ih => exact ih (h.applyChange environmentId change hrec.1) hrec.2

theorem captureBaseline_valid (t : TurnDiffTracker P) (p : TrackedPath P) (content : Option Str) :
    (t.captureBaseline p content).valid = t.valid := by
  unfold captureBaseline
  split
  · cases content <;> rfl
  · rfl

theorem applyChange_valid (t : TurnDiffTracker P) (environmentId : Str)
    (change : AppliedPatchChange P) : (t.applyChange environmentId change).valid = t.valid := by
  obtain ⟨path, change⟩ := change
  cases change with
  | add content overwritten => exact captureBaseline_valid _ _ _
  | delete content =>
    show (t.applyDelete ⟨environmentId, path⟩ content).valid = t.valid
    rw [applyDelete_eq]
    exact captureBaseline_valid _ _ _
  | update movePath old overwritten new =>
    cases movePath with
    | none => exact captureBaseline_valid _ _ _
    | some dest => exact (captureBaseline_valid _ _ _).trans (captureBaseline_valid _ _ _)

theorem applyChanges_valid (t : TurnDiffTracker P) (environmentId : Str) (changes : List (AppliedPatchChange P)) :
    (changes.foldl (applyChange environmentId) t).valid = t.valid := by
  induction changes generalizing t with
  | nil => rfl
  | cons change changes ih => exact (ih _).trans (applyChange_valid t environmentId change)

structure TurnInv (start now : Contents (TrackedPath P)) (t : TurnDiffTracker P) : Prop where
  valid : t.valid
  account : NetAccount start now t

theorem TurnInv.trackDelta (h : TurnInv start now t) (ops : RenderOps P) (environmentId : Str)
    {delta : AppliedPatchDelta P} (hexact : delta.exact)
    (hrec : RecordsAll (delta.changes.map (inEnvironment environmentId)) now) :
    TurnInv start (replayChanges (delta.changes.map (inEnvironment environmentId)) now)
      (t.trackDelta ops environmentId delta) := by
  have haccount := h.account.applyChanges environmentId delta.changes hrec
  have hvalid := (applyChanges_valid t environmentId delta.changes).trans h.valid
  unfold TurnDiffTracker.trackDelta
  simp only [h.valid, hexact]
  -- rendering the diff leaves the two maps alone
  exact ⟨hvalid, haccount.baseline, haccount.current, haccount.untracked⟩

theorem turnInv_start (displayRoots : List (Str × P)) (start : Contents (TrackedPath P)) :
    TurnInv start start (withEnvironmentDisplayRoots displayRoots) := by
  refine ⟨rfl, netAccount_iff.mpr fun q => Or.inr ⟨?_, ?_, rfl⟩⟩
  · exact baseline_eq_none.mpr (notMem_empty q)
  · exact current_eq_none.mpr (notMem_empty q)

/-- After any number of exact deltas that record what they replace, the tracker is an exact net account of
the turn. -/
theorem trackDeltas_netAccount (ops : RenderOps P) (displayRoots : List (Str × P))
    (start : Contents (TrackedPath P)) (deltas : List (Str × AppliedPatchDelta P))
    (hexact : ∀ delta ∈ deltas, delta.2.exact = true) (hrec : RecordsAll (turnChanges deltas) start) :
    NetAccount start (replayChanges (turnChanges deltas) start)
      (deltas.foldl (fun t delta => t.trackDelta ops delta.1 delta.2) (withEnvironmentDisplayRoots displayRoots)) := by
  suffices hrun : ∀ (now : Contents (TrackedPath P)) (t : TurnDiffTracker P), TurnInv start now t →
      RecordsAll (turnChanges deltas) now → TurnInv start (replayChanges (turnChanges deltas) now)
        (deltas.foldl (fun t delta => t.trackDelta ops delta.1 delta.2) t) from
    (hrun start _ (turnInv_start displayRoots start) hrec).account
  clear hrec
  induction deltas with
  | nil => exact fun now t h _ => h
  | cons delta deltas ih =>
    intro now t h hrec
    rw [turnChanges, List.flatMap_cons] at hrec ⊢
    obtain ⟨hfirst, hrest⟩ := recordsAll_append.mp hrec
    rw [replayChanges_append]
    exact ih (fun d hd => hexact d (List.mem_cons_of_mem _ hd)) _ _
      (h.trackDelta ops delta.1 (hexact delta List.mem_cons_self) hfirst) hrest

def plainRendering : RenderOps Str where
  relativePathFrom _ _ := none
  inferredNativePathString := id
  gitBlobOid _ := []
  unifiedDiff _ _ _ _ := []

def startOfTurn : Contents (TrackedPath Str) :=
  fun q => if q = ⟨[], ['a']⟩ then some (.text ['x']) else none

/-- The file is moved away, another one is added in its place and the first one is moved over it. -/
def moveAwayAndBack : List (Str × AppliedPatchDelta Str) :=
  [([], { changes := [⟨['a'], .update (some ['b']) ['x'] none ['y']⟩] }),
   ([], { changes := [⟨['a'], .add ['z'] none⟩, ⟨['b'], .update (some ['a']) ['y'] (some ['z']) ['w']⟩] })]

theorem trackDeltas_netAccount_moveBack :
    NetAccount startOfTurn (replayChanges (turnChanges moveAwayAndBack) startOfTurn)
      (moveAwayAndBack.foldl (fun t delta => t.trackDelta plainRendering delta.1 delta.2)
        (withEnvironmentDisplayRoots [])) :=
  trackDeltas_netAccount plainRendering [] startOfTurn moveAwayAndBack (by decide)
    ⟨⟨rfl, rfl⟩, rfl, ⟨rfl, rfl⟩, trivial⟩

end TurnDiffTracker

end Dcode.TurnDiff
