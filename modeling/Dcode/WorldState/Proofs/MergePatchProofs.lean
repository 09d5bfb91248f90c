import Dcode.WorldState.MergePatch

/-!
# A merge patch leads from one value to the other

Objects are compared by their lookups. `get_applyFields` and `get_patchFields` say what the two loops leave at a
key; from them `applyMergePatchValue_createMergePatch` follows by induction on the value that is patched to.
-/

namespace Dcode.WorldState

open SortedAssoc Value List Option

variable {N : Type}

variable {fields : List (Str × Value N)}

theorem nullFreeFields_iff : nullFreeFields fields ↔ ∀ e ∈ fields, e.2.isNull = false ∧ nullFree e.2 := by
  induction fields with
  | nil => simp [nullFreeFields]
  | cons e fields ih => simp [nullFreeFields, ih, and_assoc]

theorem nullFree_object_iff : nullFree (.object fields) ↔ ∀ e ∈ fields, e.2.isNull = false ∧ nullFree e.2 :=
  nullFreeFields_iff

/-! ## Applying a patch -/

theorem get_getD (previous : Option (List (Str × Value N))) (k : Str) :
    get k (previous.getD []) = previous.bind (get k) := by
  cases previous <;> rfl

def fieldAfter (old : Option (Value N)) : Option (Value N) → Option (Value N)
  | none => old
  | some value => if value.isNull then none else some (applyMergePatchValue (old.getD .null) value)

variable {patch : List (Str × Value N)}

theorem get_applyFields (hs : Sorted patch) (target : List (Str × Value N)) (k : Str) :
    get k (applyFields patch target) = fieldAfter (get k target) (get k patch) := by
  induction patch generalizing target with
  | nil => rfl
  | cons e patch ih =>
    obtain ⟨j, v⟩ := e
    have hj : get j patch = none := get_eq_none_of_forall fun e he => (hs.lt he).ne'
    by_cases hv : v.isNull
    · rw [applyFields, if_pos hv, ih hs.tail, get_remove]
      by_cases hk : k = j
      · subst hk
        simp [get_cons, hj, fieldAfter, hv]
      · simp [get_cons, hk]
    · rw [applyFields, if_neg hv, ih hs.tail, get_insert]
      by_cases hk : k = j
      · subst hk
        simp [get_cons, hj, fieldAfter, hv]
      · simp [get_cons, hk]

theorem sorted_applyFields {target : List (Str × Value N)} (ht : Sorted target) :
    Sorted (applyFields patch target) := by
  induction patch generalizing target with
  | nil => exact ht
  | cons e patch ih =>
    obtain ⟨j, v⟩ := e
    rw [applyFields]
    split
    · exact ih (ht.remove j)
    · exact ih (ht.insert j _)

theorem applyMergePatchValue_leaf (target : Value N) {patch : Value N} (h : patch.asObject = none) :
    applyMergePatchValue target patch = patch := by
  cases patch with
  | object fields => simp [asObject] at h
  | _ => rfl

/-- A value without null fields, applied to what is not an object, is the result. -/
theorem applyMergePatchValue_fresh {patch : Value N} (hw : patch.WF) (hn : nullFree patch)
    {target : Value N} (ht : target.asObject = none) : applyMergePatchValue target patch = patch := by
  induction patch using inductionOnFields generalizing target with
  | leaf patch h => exact applyMergePatchValue_leaf target h
  | object fields ih =>
    obtain ⟨hs, hws⟩ := WF_object_iff.mp hw
    have hns := nullFree_object_iff.mp hn
    rw [applyMergePatchValue, ht]
    congr 1
    refine (sorted_applyFields (Pairwise.nil)).ext hs fun k => ?_
    rw [get_applyFields hs]
    cases hk : get k fields with
    | none => rfl
    | some v =>
      have hm := mem_of_get hk
      have hfresh : applyMergePatchValue .null v = v := ih _ hm (hws _ hm) (hns _ hm).2 rfl
      simp [fieldAfter, (hns _ hm).1, hfresh]

/-! ## Creating a patch -/

theorem get_removals (previous current : List (Str × Value N)) (k : Str) : get k (removals previous current) =
      if (get k previous).isSome ∧ get k current = none then some .null else none := by
  suffices h : ∀ patch : List (Str × Value N), get k (previous.foldl
        (fun patch e => if (get e.1 current).isSome then patch else insert e.1 .null patch) patch) =
      if (get k previous).isSome ∧ get k current = none then some .null else get k patch from h []
  induction previous with
  | nil => simp
  | cons e previous ih =>
    intro patch
    obtain ⟨j, v⟩ := e
    rw [foldl_cons, ih]
    by_cases hk : k = j
    · subst hk
      cases hc : get k current <;> simp [get_cons, get_insert]
    · by_cases hj : (get j current).isSome <;> simp [get_cons, get_insert, hk, hj]

theorem sorted_removals (previous current : List (Str × Value N)) : Sorted (removals previous current) := by
  refine foldlRecOn previous _ Pairwise.nil fun patch hp e _ => ?_
  split
  · exact hp
  · exact Sorted.insert hp _ _

section

variable [DecidableEq N]

variable {current : Value N}

theorem createMergePatch_leaf (previous : Value N) (h : current.asObject = none) :
    createMergePatch previous current = if previous = current then none else some current := by
  cases current with
  | object fields => simp [asObject] at h
  | _ => rw [createMergePatch]; simp

theorem createMergePatch_eq_none_iff (previous current : Value N) :
    createMergePatch previous current = none ↔ previous = current := by
  cases current with
  | object fields => rw [createMergePatch]; split <;> simp_all
  | _ => rw [createMergePatch_leaf previous rfl]; split <;> simp_all

/-- A patch towards a value other than null is not itself null, which would remove the field. -/
theorem isNull_of_createMergePatch {previous patch : Value N} (h : createMergePatch previous current = some patch)
    (hc : current.isNull = false) :
    patch.isNull = false := by
  cases hobj : current.asObject with
  | none =>
    rw [createMergePatch_leaf previous hobj] at h
    split at h
    · cases h
    · rwa [← some.inj h]
  | some fields =>
    cases current with
    | object fields =>
      rw [createMergePatch] at h
      split at h
      · cases h
      · rw [← some.inj h]
        rfl
    | _ => simp [asObject] at hobj

variable (previous : Option (List (Str × Value N)))

def fieldPatch (key : Str) (current : Value N) : Option (Value N) :=
  (previous.bind (get key)).elim (some current) fun previousValue => createMergePatch previousValue current

theorem patchFields_cons (key : Str) (value : Value N) (rest patch : List (Str × Value N)) :
    patchFields previous ((key, value) :: rest) patch =
      patchFields previous rest ((fieldPatch previous key value).elim patch fun v => insert key v patch) := by
  rw [patchFields]
  cases hp : previous.bind (get key) with
  | none => simp [fieldPatch, hp]
  | some previousValue => cases hc : createMergePatch previousValue value <;> simp [fieldPatch, hp, hc]

theorem sorted_patchFields {previous : Option (List (Str × Value N))} {current patch : List (Str × Value N)}
    (hp : Sorted patch) : Sorted (patchFields previous current patch) := by
  induction current generalizing patch with
  | nil => exact hp
  | cons e current ih =>
    obtain ⟨j, v⟩ := e
    rw [patchFields_cons]
    apply ih
    cases fieldPatch previous j v with
    | none => exact hp
    | some w => exact hp.insert j w

theorem get_patchFields {current : List (Str × Value N)}
    (hs : Sorted current) (patch : List (Str × Value N)) (k : Str) :
    get k (patchFields previous current patch) = ((get k current).bind (fieldPatch previous k)).or (get k patch) := by
  induction current generalizing patch with
  | nil => simp [patchFields]
  | cons e current ih =>
    obtain ⟨j, v⟩ := e
    have hj : get j current = none := get_eq_none_of_forall fun e he => (hs.lt he).ne'
    rw [patchFields_cons, ih hs.tail]
    by_cases hk : k = j
    · subst hk
      cases hf : fieldPatch previous k v <;> simp [get_cons, hj, hf, get_insert]
    · cases hf : fieldPatch previous j v <;> simp [get_cons, hk, get_insert]

/-! ## The two together -/

/-- The patch of an object holds, at each key, the patch of that field, or its removal. -/
theorem get_patch (previous : Value N) {current : List (Str × Value N)} (hs : Sorted current) (k : Str) :
    get k (patchFields previous.asObject current
        ((previous.asObject.map fun fields => removals fields current).getD [])) =
      match get k current with
      | some value => fieldPatch previous.asObject k value
      | none => (previous.asObject.bind (get k)).map fun _ => .null := by
  rw [get_patchFields _ hs]
  cases hc : get k current with
  | some value =>
    cases hp : previous.asObject with
    | none => simp
    | some fields => simp [get_removals, hc]
  | none =>
    cases hp : previous.asObject with
    | none => simp
    | some fields =>
      cases hk : get k fields <;> simp [get_removals, hc, hk]

theorem fieldAfter_fieldPatch {previous : Option (List (Str × Value N))} {k : Str} {value : Value N}
    (hw : value.WF) (hn : nullFree value) (hnull : value.isNull = false)
    (hpatch : ∀ pv vp : Value N, previous.bind (get k) = some pv → createMergePatch pv value = some vp →
      applyMergePatchValue pv vp = value) :
    fieldAfter (previous.bind (get k)) (fieldPatch previous k value) = some value := by
  cases hp : previous.bind (get k) with
  | none =>
    have hfresh : applyMergePatchValue .null value = value := applyMergePatchValue_fresh hw hn rfl
    simp [fieldPatch, hp, fieldAfter, hnull, hfresh]
  | some pv =>
    cases hc : createMergePatch pv value with
    | none =>
      obtain rfl := (createMergePatch_eq_none_iff pv value).mp hc
      simp [fieldPatch, hp, hc, fieldAfter]
    | some vp =>
      have hvp := isNull_of_createMergePatch hc hnull
      simp [fieldPatch, hp, hc, fieldAfter, hvp, hpatch pv vp hp hc]

/-- Applying the patch that was created from `previous` to `current` to `previous` gives `current`. -/
theorem applyMergePatchValue_createMergePatch {previous patch : Value N} (hw : current.WF)
    (hn : nullFree current) (hp : previous.WF) (h : createMergePatch previous current = some patch) :
    applyMergePatchValue previous patch = current := by
  induction current using inductionOnFields generalizing previous patch with
  | leaf current hobj =>
    rw [createMergePatch_leaf previous hobj] at h
    split at h
    · cases h
    · obtain rfl := some.inj h
      exact applyMergePatchValue_leaf previous hobj
  | object fields ih =>
    obtain ⟨hs, hws⟩ := WF_object_iff.mp hw
    have hns := nullFree_object_iff.mp hn
    rw [createMergePatch] at h
    split at h
    · cases h
    obtain rfl := some.inj h
    have htarget : Sorted (previous.asObject.getD []) := previous.sorted_asObject hp
    rw [applyMergePatchValue]
    congr 1
    -- two objects are equal when they look up the same
    refine (sorted_applyFields htarget).ext hs fun k => ?_
    have hpatch : Sorted (patchFields previous.asObject fields
        ((previous.asObject.map fun old => removals old fields).getD [])) := by
      apply sorted_patchFields
      cases previous.asObject with
      | none => exact Pairwise.nil
      | some old => exact sorted_removals old fields
    rw [get_applyFields hpatch, get_patch previous hs, get_getD]
    cases hk : get k fields with
    | some value =>
      have hm := mem_of_get hk
      refine fieldAfter_fieldPatch (hws _ hm) (hns _ hm).2 (hns _ hm).1 fun pv vp hpv hvp => ?_
      exact ih _ hm (hws _ hm) (hns _ hm).2 (previous.wf_of_get hp hpv) hvp
    | none => cases previous.asObject.bind (get k) <;> simp [fieldAfter, isNull]

end

/-! ## What the operations keep -/

theorem wf_insert (h : (object fields).WF) (k : Str) {v : Value N} (hv : v.WF) : (object (insert k v fields)).WF := by
  obtain ⟨hs, hws⟩ := WF_object_iff.mp h
  refine WF_object_iff.mpr ⟨hs.insert k v, fun e he => ?_⟩
  rcases mem_insert he with rfl | he
  · exact hv
  · exact hws e he

theorem wf_remove (h : (object fields).WF) (k : Str) : (object (remove k fields)).WF := by
  obtain ⟨hs, hws⟩ := WF_object_iff.mp h
  exact WF_object_iff.mpr ⟨hs.remove k, fun e he => hws e (mem_filter.mp he).1⟩

theorem wf_applyFields {target : List (Str × Value N)} (ht : (object target).WF)
    (hp : ∀ e ∈ patch, ∀ old : Value N, old.WF → (applyMergePatchValue old e.2).WF) :
    (object (applyFields patch target)).WF := by
  induction patch generalizing target with
  | nil => exact ht
  | cons e patch ih =>
    obtain ⟨j, v⟩ := e
    rw [forall_mem_cons] at hp
    rw [applyFields]
    split
    · exact ih (wf_remove ht j) hp.2
    · have hold : ((get j target).getD .null).WF := by
        cases hj : get j target with
        | none => rfl
        | some w => exact (WF_object_iff.mp ht).2 _ (mem_of_get hj)
      exact ih (wf_insert ht j (hp.1 _ hold)) hp.2

theorem wf_applyMergePatchValue {target patch : Value N} (ht : target.WF) (hp : patch.WF) :
    (applyMergePatchValue target patch).WF := by
  induction patch using inductionOnFields generalizing target with
  | leaf patch h => rwa [applyMergePatchValue_leaf target h]
  | object fields ih =>
    have hws := (WF_object_iff.mp hp).2
    have hfields : (object (target.asObject.getD [])).WF := by
      cases target with
      | object fields => exact ht
      | _ => rfl
    exact wf_applyFields hfields fun e he old hold => ih e he hold (hws e he)

theorem wf_removals {previous : List (Str × Value N)} (current : List (Str × Value N)) :
    (object (removals previous current)).WF := by
  refine foldlRecOn (motive := fun patch => (object patch).WF) previous _ rfl fun patch hp e _ => ?_
  split
  · exact hp
  · exact wf_insert hp _ rfl

section

variable [DecidableEq N]

theorem wf_patchFields {previous : Option (List (Str × Value N))} {current patch : List (Str × Value N)}
    (hp : (object patch).WF)
    (hc : ∀ e ∈ current, ∀ w, fieldPatch previous e.1 e.2 = some w → w.WF) :
    (object (patchFields previous current patch)).WF := by
  induction current generalizing patch with
  | nil => exact hp
  | cons e current ih =>
    obtain ⟨j, v⟩ := e
    rw [forall_mem_cons] at hc
    rw [patchFields_cons]
    refine ih ?_ hc.2
    cases hf : fieldPatch previous j v with
    | none => exact hp
    | some w => exact wf_insert hp j (hc.1 w hf)

theorem wf_createMergePatch {previous current patch : Value N} (hw : current.WF)
    (h : createMergePatch previous current = some patch) : patch.WF := by
  induction current using inductionOnFields generalizing previous patch with
  | leaf current hobj =>
    rw [createMergePatch_leaf previous hobj] at h
    split at h
    · cases h
    · rwa [← some.inj h]
  | object fields ih =>
    have hws := (WF_object_iff.mp hw).2
    rw [createMergePatch] at h
    split at h
    · cases h
    rw [← some.inj h]
    have hstart : (object ((previous.asObject.map fun old => removals old fields).getD [])).WF := by
      cases previous.asObject with
      | none => rfl
      | some old => exact wf_removals fields
    refine wf_patchFields hstart fun e he w hf => ?_
    rw [fieldPatch] at hf
    cases hp : previous.asObject.bind (get e.1) with
    | none =>
      rw [hp] at hf
      rw [← some.inj hf]
      exact hws e he
    | some pv =>
      rw [hp] at hf
      exact ih e he (hws e he) hf

end

theorem removeNullFields_eq (fields : List (Str × Value N)) : removeNullFields fields =
    (fields.filter fun e => !e.2.isNull).map fun e => (e.1, removeNullObjectFields e.2) := by
  induction fields with
  | nil => rfl
  | cons e fields ih => cases h : e.2.isNull <;> simp [removeNullFields, h, ih]

theorem wf_removeNullObjectFields {value : Value N} (hw : value.WF) : (removeNullObjectFields value).WF := by
  induction value using inductionOnFields with
  | leaf value h =>
    cases value with
    | object fields => simp [asObject] at h
    | _ => exact hw
  | object fields ih =>
    obtain ⟨hs, hws⟩ := WF_object_iff.mp hw
    rw [removeNullObjectFields, removeNullFields_eq]
    refine WF_object_iff.mpr ⟨pairwise_map.mpr (hs.filter _), fun kept hkept => ?_⟩
    obtain ⟨e, he, rfl⟩ := mem_map.mp hkept
    have hmem := (mem_filter.mp he).1
    exact ih e hmem (hws e hmem)

/-- What `remove_null_object_fields` leaves has no null field. -/
theorem nullFree_removeNullObjectFields (value : Value N) : nullFree (removeNullObjectFields value) := by
  induction value using inductionOnFields with
  | leaf value h =>
    cases value with
    | object fields => simp [asObject] at h
    | _ => rfl
  | object fields ih =>
    rw [removeNullObjectFields, removeNullFields_eq, nullFree_object_iff]
    intro kept hkept
    obtain ⟨e, he, rfl⟩ := mem_map.mp hkept
    obtain ⟨hmem, hnull⟩ := mem_filter.mp he
    refine ⟨?_, ih e hmem⟩
    cases hv : e.2 <;> simp_all [removeNullObjectFields, isNull]

end Dcode.WorldState
