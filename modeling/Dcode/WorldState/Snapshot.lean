import Dcode.WorldState.Proofs.MergePatchProofs

/-!
# Persisted world state

`WorldStateSnapshot` of `codex-rs/core/src/context/world_state/mod.rs`, the record that
`ContextManager::update_world_state` (`codex-rs/core/src/context_manager/history.rs`) writes for a snapshot, and the
replay of such records in `codex-rs/core/src/session/rollout_reconstruction.rs`. The fragments that an update renders
for the model are left out: they do not touch the record.
-/

namespace Dcode.WorldState

open SortedAssoc

variable {N : Type}

structure WorldStateSnapshot (N : Type) where
  sections : List (Str × Value N)
  wf : (Value.object sections).WF

namespace WorldStateSnapshot

def intoValue (self : WorldStateSnapshot N) : Json N := ⟨.object self.sections, self.wf⟩

def fromValue : Json N → Option (WorldStateSnapshot N)
  | ⟨.object sections, wf⟩ => some ⟨sections, wf⟩
  | _ => none

def mergePatchFrom [DecidableEq N] (self previous : WorldStateSnapshot N) : Option (Json N) :=
  (createMergePatch (.object previous.sections) (.object self.sections)).attach.map fun patch =>
    ⟨patch.1, wf_createMergePatch self.wf patch.2⟩

def applyMergePatch (self : WorldStateSnapshot N) (patch : Json N) : Option (WorldStateSnapshot N) :=
  fromValue ⟨applyMergePatchValue self.intoValue.value patch.value,
    wf_applyMergePatchValue self.intoValue.wf patch.wf⟩

end WorldStateSnapshot

/-! ## Taking a snapshot -/

/-- `ErasedWorldStateSection::snapshot` from the serialised section, which is missing when the section is not
to be persisted or cannot be serialised. -/
def sectionSnapshot (serialized : Option (Json N)) : Option (Json N) :=
  serialized.bind fun value =>
    let snapshot : Json N := ⟨removeNullObjectFields value.value, wf_removeNullObjectFields value.wf⟩
    if snapshot.value.isNull then none else some snapshot

/-- `WorldState::snapshot`: the sections in their order, with what each one serialises to. -/
def takeSnapshot (sections : List (Str × Option (Json N))) : WorldStateSnapshot N :=
  sections.foldl (fun taken s =>
    (sectionSnapshot s.2).elim taken fun value =>
      ⟨insert s.1 value.value taken.sections, wf_insert taken.wf s.1 value.wf⟩) ⟨[], rfl⟩

/-! ## Records -/

/-- `WorldStateItem`: a full snapshot, or a patch of the one before. -/
structure WorldStateItem (N : Type) where
  full : Bool
  state : Json N

def updateWorldState [DecidableEq N] (baseline : Option (WorldStateSnapshot N))
    (snapshot : WorldStateSnapshot N) : Option (WorldStateItem N) × Option (WorldStateSnapshot N) :=
  let rolloutItem := baseline.elim (some ⟨true, snapshot.intoValue⟩) fun previous =>
    (snapshot.mergePatchFrom previous).map fun patch => ⟨false, patch⟩
  (rolloutItem, some snapshot)

/-- The records that a sequence of updates leaves. -/
def persist [DecidableEq N] : Option (WorldStateSnapshot N) → List (WorldStateSnapshot N) → List (WorldStateItem N)
  | _, [] => []
  | baseline, snapshot :: rest =>
    let (rolloutItem, baseline) := updateWorldState baseline snapshot
    rolloutItem.toList ++ persist baseline rest

/-- What replaying one record makes of the baseline. A patch without a baseline is ignored, and one that cannot
be applied drops the baseline. -/
def replayItem (baseline : Option (WorldStateSnapshot N)) (item : WorldStateItem N) : Option (WorldStateSnapshot N) :=
  if item.full then WorldStateSnapshot.fromValue item.state
  else baseline.bind fun snapshot => snapshot.applyMergePatch item.state

end Dcode.WorldState
