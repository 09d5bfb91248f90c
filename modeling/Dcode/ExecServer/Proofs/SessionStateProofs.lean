import Dcode.ExecServer.ProcessLog

/-!
# The client publishes the log in order

Whatever true events reach the client and in whichever order, it has published the first events of the log, and holds back
those that come later than the next one.
-/

namespace Dcode.ExecServer.SessionState

open SortedAssoc List Nat

variable {log : ProcessLog} {st : SessionState}

/-- The number of the last event that was published. -/
abbrev lastSeq (st : SessionState) : Nat := st.orderedEvents.lastPublishedSeq

structure Tracks (log : ProcessLog) (st : SessionState) : Prop where
  faithful : Faithful log st
  last_le : st.lastSeq ≤ log.events.length
  sorted : SortedAssoc.Sorted st.orderedEvents.pending
  pending : ∀ seq event, (seq, event) ∈ st.orderedEvents.pending →
    event ∈ log.events ∧ event.seq = some seq ∧ st.lastSeq < seq
  exitPublished : st.orderedEvents.exitPublished = (log.events.take st.lastSeq).any ExecProcessEvent.isExited
  closedPublished : st.orderedEvents.closedPublished = (log.events.take st.lastSeq).any ExecProcessEvent.isClosed

def Drained (st : SessionState) : Prop :=
  SortedAssoc.get (st.lastSeq + 1) st.orderedEvents.pending = none

theorem tracks_new : Tracks log {} where
  faithful := rfl
  last_le := zero_le _
  sorted := Pairwise.nil
  pending := fun _ _ h => by cases h
  exitPublished := rfl
  closedPublished := rfl

theorem known_iff {seq : Nat} : st.Known seq ↔ seq ≤ st.lastSeq ∨ (get seq st.orderedEvents.pending).isSome := Iff.rfl

theorem lt_of_not_known {seq : Nat} (h : ¬ st.Known seq) : st.lastSeq < seq := Nat.lt_of_not_le fun hle => h (.inl hle)

theorem Drained.not_known (h : Drained st) : ¬ st.Known (st.lastSeq + 1) := by
  rw [known_iff]
  rintro (hle | hpending)
  · omega
  · rw [h] at hpending
    cases hpending

/-- If the events up to a number are known and none can be published, they are published. -/
theorem Drained.le_last (h : Drained st) {n : Nat} (hknown : ∀ seq, st.lastSeq < seq → seq ≤ n → st.Known seq) :
    n ≤ st.lastSeq := by
  by_contra hlt
  exact h.not_known (hknown _ (lt_succ_self _) (by omega))

theorem Tracks.length_published (h : Tracks log st) : (st.published.filter (·.seq.isSome)).length = st.lastSeq := by
  rw [h.faithful, length_take]
  exact min_eq_left h.last_le

/-! ## Publishing what is ready -/

variable {event : ExecProcessEvent}

theorem known_publishNext
    (hnext : get (st.lastSeq + 1) st.orderedEvents.pending = some event) (seq : Nat) :
    (st.publishNext event).Known seq ↔ st.Known seq := by
  have hget : get seq (st.publishNext event).orderedEvents.pending =
      if seq = st.lastSeq + 1 then none else get seq st.orderedEvents.pending :=
    get_remove _ _ _
  have hlast : (st.publishNext event).lastSeq = st.lastSeq + 1 := rfl
  rw [known_iff, known_iff, hget, hlast]
  by_cases heq : seq = st.lastSeq + 1
  · subst heq
    rw [hnext]
    simp
  · rw [if_neg heq]
    constructor
    · rintro (hle | hpending)
      · exact .inl (by omega)
      · exact .inr hpending
    · rintro (hle | hpending)
      · exact .inl (by omega)
      · exact .inr hpending

theorem Tracks.publishNext (h : Tracks log st) (hnext : get (st.lastSeq + 1) st.orderedEvents.pending = some event) :
    Tracks log (st.publishNext event) := by
  obtain ⟨hmem, hseq, -⟩ := h.pending _ _ (mem_of_get hnext)
  have htake := log.numbered.take_succ hmem hseq
  refine ⟨?_, log.numbered.le_length hmem hseq, h.sorted.remove _, ?_, ?_, ?_⟩
  · change (st.published ++ [event]).filter (·.seq.isSome) = log.events.take (st.lastSeq + 1)
    rw [htake, filter_append, h.faithful]
    simp [hseq]
  · intro seq e he
    obtain ⟨he, hne⟩ := mem_filter.mp he
    obtain ⟨hmem', hseq', hlt⟩ := h.pending seq e he
    refine ⟨hmem', hseq', ?_⟩
    have hne' : seq ≠ st.lastSeq + 1 := by simpa using hne
    change st.lastSeq + 1 < seq
    omega
  · change (st.orderedEvents.exitPublished || event.isExited) = _
    rw [h.exitPublished]
    change _ = (log.events.take (st.lastSeq + 1)).any _
    rw [htake]
    simp
  · change (st.orderedEvents.closedPublished || event.isClosed) = _
    rw [h.closedPublished]
    change _ = (log.events.take (st.lastSeq + 1)).any _
    rw [htake]
    simp

/-- What publishing does: the log goes on being tracked, nothing more becomes known, and nothing is ready any more. -/
structure Publishes (log : ProcessLog) (st st' : SessionState) : Prop where
  tracks : Tracks log st'
  drained : Drained st'
  known : ∀ seq, st'.Known seq ↔ st.Known seq
  failure : st'.orderedEvents.failure = st.orderedEvents.failure

theorem publishReadyLoop_publishes (rounds : Nat) (h : Tracks log st) (hrounds : st.orderedEvents.pending.length ≤ rounds) :
    Publishes log st (publishReadyLoop rounds st).1 := by
  induction rounds generalizing st with
  | zero =>
    have hnil : st.orderedEvents.pending = [] := length_eq_zero_iff.mp (le_zero.mp hrounds)
    refine ⟨h, ?_, fun _ => Iff.rfl, rfl⟩
    change get (st.lastSeq + 1) st.orderedEvents.pending = none
    rw [hnil]
    rfl
  | succ rounds ih =>
    rw [publishReadyLoop]
    cases hnext : get (st.orderedEvents.lastPublishedSeq + 1) st.orderedEvents.pending with
    | none => exact ⟨h, hnext, fun _ => Iff.rfl, rfl⟩
    | some event =>
      have hless := length_remove_lt hnext
      have hrest := ih (h.publishNext hnext) (by change (remove _ _).length ≤ rounds; omega)
      exact ⟨hrest.tracks, hrest.drained, fun seq => (hrest.known seq).trans (known_publishNext hnext seq), hrest.failure⟩

theorem Tracks.publishReady (h : Tracks log st) : Publishes log st st.publishReady.1 :=
  publishReadyLoop_publishes _ h (le_refl _)

/-! ## An event comes in -/

theorem insertPending_eq_ok {events orderedEvents : OrderedSessionEvents} {seq : Nat}
    (hseq : event.seq = some seq) (h : events.insertPending event = .ok orderedEvents) :
    (get seq events.pending).isSome ∧ orderedEvents = events ∨ orderedEvents = { events with
          pending := insert seq event events.pending
          pendingBytes := events.pendingBytes + event.retainedLen } := by
  rw [OrderedSessionEvents.insertPending, hseq] at h
  dsimp only at h
  split at h
  next hpresent =>
    exact .inl ⟨hpresent, (Except.ok.inj h).symm⟩
  · split at h
    · cases h
    · split at h
      · cases h
      · split at h
        · cases h
        · exact .inr (Except.ok.inj h).symm

theorem known_insert {seq seq' : Nat} {orderedEvents : OrderedSessionEvents}
    (hlast : orderedEvents.lastPublishedSeq = st.lastSeq)
    (hpending : orderedEvents.pending = insert seq event st.orderedEvents.pending) :
    ({ st with orderedEvents } : SessionState).Known seq' ↔ st.Known seq' ∨ seq' = seq := by
  rw [Known, Known]
  rw [hlast, hpending, get_insert]
  by_cases heq : seq' = seq
  · simp [heq]
  · simp [heq]

theorem Tracks.insertPending (h : Tracks log st) (hmem : event ∈ log.events) {seq : Nat}
    (hseq : event.seq = some seq) (hlt : st.lastSeq < seq) {orderedEvents : OrderedSessionEvents}
    (hinsert : st.orderedEvents.insertPending event = .ok orderedEvents) :
    Tracks log { st with orderedEvents } ∧ orderedEvents.failure = st.orderedEvents.failure ∧
      ∀ seq', ({ st with orderedEvents } : SessionState).Known seq' ↔ st.Known seq' ∨ seq' = seq := by
  rcases insertPending_eq_ok hseq hinsert with ⟨hpresent, rfl⟩ | rfl
  · refine ⟨h, rfl, fun seq' => ⟨.inl, ?_⟩⟩
    rintro (hknown | rfl)
    · exact hknown
    · exact .inr hpresent
  · refine ⟨⟨h.faithful, h.last_le, h.sorted.insert _ _, ?_, h.exitPublished, h.closedPublished⟩, rfl,
      fun seq' => known_insert rfl rfl⟩
    intro seq' e he
    rcases mem_insert he with heq | he
    · obtain ⟨rfl, rfl⟩ := Prod.mk.inj heq
      exact ⟨hmem, hseq, hlt⟩
    · exact h.pending seq' e he

theorem Tracks.setFailure (h : Tracks log st) (message : Str) : Tracks log (st.setFailure message) := by
  rw [SessionState.setFailure]
  split
  · exact h
  · refine ⟨?_, h.last_le, Pairwise.nil, ?_, h.exitPublished, h.closedPublished⟩
    swap
    · intro seq event hmem
      cases hmem
    change (st.published ++ [ExecProcessEvent.failed message]).filter (·.seq.isSome) = _
    rw [filter_append, h.faithful]
    exact append_nil _

theorem Drained.setFailure (h : Drained st) (message : Str) : Drained (st.setFailure message) := by
  rw [SessionState.setFailure]
  split
  · exact h
  · rfl

/-- What a notification does: nothing, or it fails the session, or what is ready is published. -/
theorem handleNotification_cases {seq : Nat} (hseq : event.seq = some seq) :
    st.handleNotification event = st ∨ (∃ message, st.handleNotification event = st.setFailure message) ∨
      ∃ orderedEvents, st.lastSeq < seq ∧ st.orderedEvents.insertPending event = .ok orderedEvents ∧
        st.handleNotification event = (publishReady { st with orderedEvents }).1 := by
  by_cases hold : (st.orderedEvents.failure.isSome || st.orderedEvents.closedPublished || decide (seq ≤ st.lastSeq))
  · left
    have hpublish : st.publishOrderedEvent event = (st, .ok false) := by
      rw [publishOrderedEvent, hseq]
      exact if_pos hold
    rw [handleNotification, hpublish]
  · right
    have hlt : st.lastSeq < seq := by
      simp only [Bool.or_eq_true, decide_eq_true_eq, not_or, not_le] at hold
      exact hold.2
    cases hinsert : st.orderedEvents.insertPending event with
    | error message =>
      left
      refine ⟨message, ?_⟩
      have hpublish : st.publishOrderedEvent event = (st, .error message) := by
        rw [publishOrderedEvent, hseq]
        dsimp only
        rw [if_neg hold, hinsert]
      rw [handleNotification, hpublish]
    | ok orderedEvents =>
      right
      refine ⟨orderedEvents, hlt, rfl, ?_⟩
      have hpublish : st.publishOrderedEvent event =
          ((publishReady { st with orderedEvents }).1, .ok (publishReady { st with orderedEvents }).2) := by
        rw [publishOrderedEvent, hseq]
        dsimp only
        rw [if_neg hold, hinsert]
      rw [handleNotification, hpublish]

/-- A true notification keeps the client in step with the log. -/
theorem Tracks.handleNotification (h : Tracks log st) (hdrained : Drained st) (hmem : event ∈ log.events) :
    Tracks log (st.handleNotification event) ∧ Drained (st.handleNotification event) := by
  obtain ⟨seq, hseq⟩ := log.numbered.exists_seq hmem
  rcases handleNotification_cases hseq with hsame | ⟨message, hfailed⟩ | ⟨orderedEvents, hlt, hinsert, hpublished⟩
  · rw [hsame]
    exact ⟨h, hdrained⟩
  · rw [hfailed]
    exact ⟨h.setFailure message, hdrained.setFailure message⟩
  · rw [hpublished]
    have hpublishes := (h.insertPending hmem hseq hlt hinsert).1.publishReady
    exact ⟨hpublishes.tracks, hpublishes.drained⟩

/-- After any true notifications in any order, the client is in step with the log. -/
theorem tracks_deliver {events : List ExecProcessEvent} (hevents : ∀ e ∈ events, e ∈ log.events) :
    Tracks log (deliver events) ∧ Drained (deliver events) :=
  foldlRecOn (motive := fun st => Tracks log st ∧ Drained st) events _ ⟨tracks_new, rfl⟩
    fun _ h event hmem => h.1.handleNotification h.2 (hevents event hmem)

/-! ## The last published number only grows -/

theorem last_le_publishReadyLoop (rounds : Nat) : st.lastSeq ≤ (publishReadyLoop rounds st).1.lastSeq := by
  induction rounds generalizing st with
  | zero => exact le_refl _
  | succ rounds ih =>
    rw [publishReadyLoop]
    split
    · exact le_refl _
    next event _ =>
      exact le_of_succ_le (@ih (st.publishNext event))

theorem last_le_handleNotification (event : ExecProcessEvent) : st.lastSeq ≤ (st.handleNotification event).lastSeq := by
  cases hseq : event.seq with
  | none =>
    have hpublish : st.publishOrderedEvent event = ({ st with published := st.published ++ [event] }, .ok false) := by
      rw [publishOrderedEvent, hseq]
    rw [handleNotification, hpublish]
  | some seq =>
    rcases @handleNotification_cases st event seq hseq with
      hsame | ⟨message, hfailed⟩ | ⟨orderedEvents, -, hinsert, hpublished⟩
    · rw [hsame]
    · rw [hfailed, setFailure]
      split
      · exact le_refl _
      · exact le_refl _
    · have hlast : orderedEvents.lastPublishedSeq = st.lastSeq := by
        rcases insertPending_eq_ok hseq hinsert with ⟨-, rfl⟩ | rfl
        · rfl
        · rfl
      rw [hpublished, ← hlast]
      exact @last_le_publishReadyLoop { st with orderedEvents } orderedEvents.pending.length

theorem last_le_foldl (events : List ExecProcessEvent) : st.lastSeq ≤ (events.foldl handleNotification st).lastSeq := by
  induction events generalizing st with
  | nil => exact le_refl _
  | cons event events ih => exact le_trans (last_le_handleNotification event) ih

end Dcode.ExecServer.SessionState
