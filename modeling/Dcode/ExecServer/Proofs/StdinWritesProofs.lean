import Dcode.ExecServer.StdinWrites

/-!
# No write is handed over twice

The retained ids are the last ones handed over, so an id that left them has as many later ones after it.
-/

namespace Dcode.ExecServer

open List AcceptedStdinWriteIds

/-- The last of the ids, as many as are kept. -/
def retained (ids : List Str) : List Str := ids.drop (ids.length - retainedStdinWriteIdsPerProcess)

theorem AcceptedStdinWriteIds.evict_eq {order : List Str} (h : order.Nodup) :
    evict order.toFinset order = ⟨(retained order).toFinset, retained order⟩ := by
  induction order with
  | nil => rfl
  | cons evicted order ih =>
    rw [evict, retained]
    split
    case isTrue hlt =>
      have hout : evicted ∉ order.toFinset := mem_toFinset.not.mpr h.notMem
      rw [toFinset_cons, Finset.erase_insert hout, ih h.of_cons, length_cons,
        Nat.succ_sub (Nat.le_of_lt_succ hlt), drop_succ_cons, retained]
    case isFalse hle => rw [Nat.sub_eq_zero_of_le (not_lt.mp hle), drop_zero]

theorem retained_append (ids : List Str) (id : Str) : retained (retained ids ++ [id]) = retained (ids ++ [id]) := by
  unfold retained
  generalize retainedStdinWriteIdsPerProcess = n
  rw [← drop_append_of_le_length (Nat.sub_le _ _), drop_drop, length_drop, length_append, length_singleton]
  congr 1
  omega

namespace StdinWrites

def handedIds (self : StdinWrites) : List Str := self.handed.map WriteParams.writeId

/-- What every step keeps. -/
structure Remembers (writes : StdinWrites) : Prop where
  accepted : writes.accepted = ⟨(retained writes.handedIds).toFinset, retained writes.handedIds⟩
  nodup : (retained writes.handedIds).Nodup
  apart : ∀ before between after id, writes.handedIds = before ++ id :: (between ++ id :: after) →
    retainedStdinWriteIdsPerProcess ≤ (between.toFinset.erase id).card
  answered : ∀ params, (params, .ok .accepted) ∈ writes.answers → params.writeId ∈ writes.handedIds

theorem Remembers.contains_iff {self : StdinWrites} (h : self.Remembers) (id : Str) :
    self.accepted.contains id ↔ id ∈ retained self.handedIds := by
  rw [AcceptedStdinWriteIds.contains, h.accepted, decide_eq_true_iff, mem_toFinset]

theorem card_between {ids before between : List Str} {id : Str} (hn : (retained ids).Nodup)
    (hs : ids = before ++ id :: between) (hid : id ∉ retained ids) :
    retainedStdinWriteIdsPerProcess ≤ (between.toFinset.erase id).card := by
  have ho : retained ids = drop (ids.length - retainedStdinWriteIdsPerProcess) ids := rfl
  rw [hs, length_append, length_cons, ← hs] at ho
  have hle : retainedStdinWriteIdsPerProcess ≤ between.length := by
    by_contra hlt
    rw [hs, drop_append_of_le_length (by omega), ← hs] at ho
    exact hid (ho ▸ mem_append_right _ mem_cons_self)
  have hd : before.length + (between.length + 1) - retainedStdinWriteIdsPerProcess =
      before.length + (between.length - retainedStdinWriteIdsPerProcess + 1) := by omega
  rw [hd, hs, drop_length_add_append, drop_succ_cons, ← hs] at ho
  have hsub : (retained ids).toFinset ⊆ between.toFinset.erase id := by
    intro x hx
    rw [mem_toFinset] at hx
    exact Finset.mem_erase.mpr ⟨fun he => hid (he ▸ hx), mem_toFinset.mpr (mem_of_mem_drop (ho ▸ hx))⟩
  have hcard := Finset.card_le_card hsub
  rw [toFinset_card_of_nodup hn, ho, length_drop] at hcard
  omega

theorem Remembers.hand {self : StdinWrites} (h : self.Remembers) {params : WriteParams}
    (hid : ¬ self.accepted.contains params.writeId) :
    Remembers { self with
      handed := self.handed ++ [params], accepted := self.accepted.remember params.writeId } := by
  have hout := (h.contains_iff _).not.mp hid
  have hn : (retained self.handedIds ++ [params.writeId]).Nodup :=
    h.nodup.append (nodup_singleton _) (disjoint_singleton.mpr hout)
  have hh : (self.handed ++ [params]).map WriteParams.writeId = self.handedIds ++ [params.writeId] := map_append
  have hins : insert params.writeId (retained self.handedIds).toFinset =
      (retained self.handedIds ++ [params.writeId]).toFinset := by simp
  refine ⟨?_, ?_, ?_, ?_⟩ <;> unfold handedIds <;> rw [hh]
  · rw [remember, if_neg fun hm => hid (decide_eq_true hm), h.accepted, hins, evict_eq hn, retained_append]
  · rw [← retained_append]
    exact hn.sublist (drop_sublist _ _)
  · intro before between after id hs
    rcases eq_nil_or_concat after with rfl | ⟨after, last, rfl⟩
    · rw [← cons_append, ← append_assoc] at hs
      obtain ⟨hs, heq⟩ := append_inj' hs rfl
      cases heq
      exact card_between h.nodup hs hout
    · rw [concat_eq_append, ← cons_append, ← append_assoc, ← cons_append, ← append_assoc] at hs
      refine h.apart before between after id ?_
      rw [(append_inj' hs rfl).1, append_assoc, cons_append]
  · intro params' hp
    exact mem_append_left _ (h.answered params' hp)

theorem Remembers.execWrite {self next : StdinWrites} (h : self.Remembers) {params : WriteParams}
    {entry : ProcessEntry} {hasPermit : Bool} {phase : WritePhase} {out : WritePhase ⊕ Except WriteError WriteStatus}
    (heq : self.execWrite params entry hasPermit phase = (next, out)) :
    next.Remembers ∧ next.answers = self.answers ∧ (out = .inr (.ok .accepted) → params.writeId ∈ next.handedIds) := by
  have hm := fun hc => mem_of_mem_drop ((h.contains_iff params.writeId).mp hc)
  cases phase with
  | called =>
    cases heq
    refine ⟨h, rfl, fun ha => ?_⟩
    split at ha
    · cases ha
    · split at ha <;> cases ha
  | running =>
    cases heq
    refine ⟨h, rfl, fun ha => ?_⟩
    split at ha
    · next hc => exact hm hc
    · cases ha
  | reserving =>
    cases heq
    refine ⟨h, rfl, fun ha => ?_⟩
    split at ha <;> cases ha
  | reserved =>
    rw [StdinWrites.execWrite] at heq
    split at heq
    · next hc =>
      cases heq
      exact ⟨h, rfl, fun _ => hm hc⟩
    · next hc =>
      cases heq
      exact ⟨h.hand hc, rfl, fun _ => mem_map_of_mem (mem_append_right _ mem_cons_self)⟩

theorem Remembers.step {self : StdinWrites} (h : self.Remembers) (s : Step) : (self.step s).Remembers := by
  cases s with
  | call params | cancel i => exact ⟨h.accepted, h.nodup, h.apart, h.answered⟩
  | resume i entry hasPermit =>
    rw [StdinWrites.step]
    split
    · exact h
    · split
      · next heq =>
        have h' := (h.execWrite heq).1
        exact ⟨h'.accepted, h'.nodup, h'.apart, h'.answered⟩
      · next heq =>
        obtain ⟨h', hans, hacc⟩ := h.execWrite heq
        refine ⟨h'.accepted, h'.nodup, h'.apart, fun params' hp => ?_⟩
        rcases mem_append.mp hp with hp | hp
        · exact h'.answered params' (hans ▸ hp)
        · cases mem_singleton.mp hp
          exact hacc rfl

theorem run_remembers (steps : List Step) : (run steps).Remembers := by
  refine foldlRecOn steps StdinWrites.step ⟨rfl, nodup_nil, ?_, ?_⟩ fun _ h s _ => h.step s
  · intro before between after id hs
    simp [handedIds] at hs
  · intro params hp
    cases hp

/-- Between two hand-overs under one write id lie those of at least 4096 other ids, and the id of every call that answers
`Accepted` was handed over. -/
theorem run_execWrite_once (steps : List Step) : (∀ before first between second after,
      (run steps).handed = before ++ first :: (between ++ second :: after) → first.writeId = second.writeId →
      retainedStdinWriteIdsPerProcess ≤ ((between.map WriteParams.writeId).toFinset.erase first.writeId).card) ∧
    ∀ params, (params, .ok .accepted) ∈ (run steps).answers →
      ∃ write ∈ (run steps).handed, write.writeId = params.writeId := by
  have h := run_remembers steps
  refine ⟨?_, fun params hp => mem_map.mp (h.answered params hp)⟩
  intro before first between second after hs hid
  refine h.apart (before.map WriteParams.writeId) _ (after.map WriteParams.writeId) _ ?_
  rw [handedIds, hs, map_append, map_cons, map_append, map_cons, ← hid]

/-- The ids that a run remembers are the last ones that it handed over, and no more than 4096. -/
theorem run_contains_iff (steps : List Step) : (run steps).accepted.ids.card ≤ retainedStdinWriteIdsPerProcess ∧
    ∀ id, (run steps).accepted.contains id ↔ id ∈ retained (run steps).handedIds := by
  have h := run_remembers steps
  refine ⟨?_, h.contains_iff⟩
  rw [h.accepted]
  refine (toFinset_card_le _).trans ?_
  rw [retained, length_drop]
  omega

end StdinWrites

end Dcode.ExecServer
