import Dcode.WorldState.Snapshot

/-!
# Replaying the records gives the last snapshot

One update leaves a record from which the replay reaches the new snapshot (`replay_updateWorldState`); a sequence of
updates follows by induction. The snapshots that a world state takes have no null field, so that nothing is
left to assume of them.
-/

namespace Dcode.WorldState

open SortedAssoc WorldStateSnapshot Option

variable {N : Type}

def WorldStateSnapshot.NullFree (snapshot : WorldStateSnapshot N) : Prop :=
  nullFree (.object snapshot.sections)

theorem WorldStateSnapshot.ext_sections {a b : WorldStateSnapshot N} (h : a.sections = b.sections) : a = b := by
  cases b
  cases h
  rfl

theorem fromValue_of_eq {snapshot : WorldStateSnapshot N} {value : Json N}
    (h : value.value = .object snapshot.sections) : fromValue value = some snapshot := by
  obtain ⟨value, hw⟩ := value
  subst h
  rfl

theorem fromValue_intoValue (snapshot : WorldStateSnapshot N) : fromValue snapshot.intoValue = some snapshot := rfl

section

variable [DecidableEq N] {self previous : WorldStateSnapshot N}

theorem mergePatchFrom_eq_some {patch : Json N} (h : self.mergePatchFrom previous = some patch) :
    createMergePatch (.object previous.sections) (.object self.sections) = some patch.value := by
  rw [mergePatchFrom, map_eq_some_iff] at h
  obtain ⟨p, -, rfl⟩ := h
  exact p.2

theorem mergePatchFrom_eq_none : self.mergePatchFrom previous = none ↔ self = previous := by
  have hsections : createMergePatch (.object previous.sections) (.object self.sections) = none ↔
      self.sections = previous.sections := by
    rw [createMergePatch_eq_none_iff, Value.object.injEq]
    exact eq_comm
  rw [mergePatchFrom, map_eq_none_iff, attach_eq_none_iff, hsections]
  exact ⟨ext_sections, fun h => h ▸ rfl⟩

/-- A snapshot is what its patch makes of the one before. -/
theorem applyMergePatch_mergePatchFrom {patch : Json N}
    (hn : self.NullFree) (h : self.mergePatchFrom previous = some patch) :
    previous.applyMergePatch patch = some self :=
  fromValue_of_eq (applyMergePatchValue_createMergePatch self.wf hn previous.wf (mergePatchFrom_eq_some h))

/-- One update: replaying its record over the baseline reaches the snapshot, which is the new baseline. -/
theorem replay_updateWorldState (baseline : Option (WorldStateSnapshot N)) {snapshot : WorldStateSnapshot N}
    (hn : snapshot.NullFree) :
    (updateWorldState baseline snapshot).1.toList.foldl replayItem baseline = some snapshot := by
  cases baseline with
  | none => exact fromValue_intoValue snapshot
  | some previous =>
    cases hp : snapshot.mergePatchFrom previous with
    | none =>
      obtain rfl := mergePatchFrom_eq_none.mp hp
      simp [updateWorldState, hp]
    | some patch =>
      have happly := applyMergePatch_mergePatchFrom hn hp
      simp [updateWorldState, hp, replayItem, happly]

theorem replay_persist_from (baseline : Option (WorldStateSnapshot N)) {snapshots : List (WorldStateSnapshot N)}
    (hn : ∀ s ∈ snapshots, s.NullFree) :
    (persist baseline snapshots).foldl replayItem baseline = snapshots.getLast?.or baseline := by
  induction snapshots generalizing baseline with
  | nil => rfl
  | cons s rest ih =>
    rw [List.forall_mem_cons] at hn
    have hstep := replay_updateWorldState baseline hn.1
    have hbaseline : (updateWorldState baseline s).2 = some s := rfl
    rw [persist, List.foldl_append, hstep, hbaseline, ih (some s) hn.2, List.getLast?_cons]
    cases rest.getLast? <;> rfl

/-- What was written for a sequence of snapshots is read back as the last of them, and nothing is written for a
snapshot exactly when it equals the one before. -/
theorem replay_persist (snapshots : List (WorldStateSnapshot N)) (hn : ∀ s ∈ snapshots, s.NullFree) :
    (persist none snapshots).foldl replayItem none = snapshots.getLast? ∧
      ∀ self previous : WorldStateSnapshot N, self.mergePatchFrom previous = none ↔ self = previous := by
  refine ⟨?_, fun self previous => mergePatchFrom_eq_none⟩
  rw [replay_persist_from none hn, Option.or_none]

/-- Snapshots in which an object becomes another object, an array with a null appears, and an object becomes a
text. -/
def changingSnapshots : List (WorldStateSnapshot Nat) :=
  [⟨[(['e'], .object [(['c'], .string ['a']), (['s'], .number 1)])], by decide +kernel⟩,
    ⟨[(['e'], .object [(['c'], .string ['b'])]), (['l'], .array [.null])], by decide +kernel⟩,
    ⟨[(['e'], .string ['o'])], by decide +kernel⟩]

theorem replay_persist_changing : (∀ s ∈ changingSnapshots, nullFree (.object s.sections) = true) ∧
      (persist none changingSnapshots).foldl replayItem none = changingSnapshots.getLast? := by
  have hn : ∀ s ∈ changingSnapshots, nullFree (.object s.sections) := by
    simp [changingSnapshots, nullFree, nullFreeFields, Value.isNull]
  exact ⟨hn, (replay_persist changingSnapshots hn).1⟩

end

/-! ## The snapshots of a world state -/

theorem nullFree_insert {fields : List (Str × Value N)} (h : nullFree (.object fields)) (k : Str)
    {v : Value N} (hnull : v.isNull = false) (hv : nullFree v) :
    nullFree (.object (insert k v fields)) := by
  rw [nullFree_object_iff] at h ⊢
  intro e he
  rcases mem_insert he with rfl | he
  · exact ⟨hnull, hv⟩
  · exact h e he

theorem nullFree_takeSnapshot (sections : List (Str × Option (Json N))) : (takeSnapshot sections).NullFree := by
  refine List.foldlRecOn (motive := WorldStateSnapshot.NullFree) sections _ rfl fun taken ht s _ => ?_
  cases hs : sectionSnapshot s.2 with
  | none => exact ht
  | some value =>
    rw [sectionSnapshot, bind_eq_some_iff] at hs
    obtain ⟨raw, -, hraw⟩ := hs
    dsimp only at hraw
    split at hraw
    · cases hraw
    next hnull =>
      obtain rfl := Option.some.inj hraw
      exact nullFree_insert ht s.1 (by simpa using hnull) (nullFree_removeNullObjectFields raw.value)

/-- The records of a world state that changes from turn to turn restore its last snapshot. -/
theorem replay_persist_takeSnapshot [DecidableEq N] (states : List (List (Str × Option (Json N)))) :
    (persist none (states.map takeSnapshot)).foldl replayItem none = (states.map takeSnapshot).getLast? := by
  have hn : ∀ s ∈ states.map takeSnapshot, s.NullFree := by
    intro s hs
    obtain ⟨sections, -, rfl⟩ := List.mem_map.mp hs
    exact nullFree_takeSnapshot sections
  rw [replay_persist_from none hn, or_none]

end Dcode.WorldState
