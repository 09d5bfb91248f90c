import Dcode.ExecServer.Proofs.RetainedProofs
import Dcode.ExecServer.Proofs.SessionStateProofs

/-!
# Recovery after a dropped connection

The response tells no number for the exit. A gap before a kept chunk is taken for it, and rightly so unless the gap is output
that is no longer kept. Then the exit is published in its place.
-/

namespace Dcode.ExecServer.SessionState

open NumberedLog Retained Wp List Nat

variable {log : ProcessLog} {st : SessionState}

/-! ## What is published stays -/

theorem prefix_publishReadyLoop (rounds : Nat) (st : SessionState) :
    st.published <+: (publishReadyLoop rounds st).1.published := by
  induction rounds generalizing st with
  | zero => exact prefix_rfl
  | succ rounds ih =>
    rw [publishReadyLoop]
    split
    · exact prefix_rfl
    next event _ =>
      exact (prefix_append _ _).trans (ih (st.publishNext event))

def Grows {α : Type} (x : RecoverM α) : Prop :=
  ∀ st, wp x (fun _ t => st.published <+: t.published) (fun _ t => st.published <+: t.published) st

theorem grows_bind {α β : Type} {x : RecoverM α} {f : α → RecoverM β} (hx : Grows x) (hf : ∀ a, Grows (f a)) :
    Grows (x >>= f) := by
  intro st
  refine wp_seq (hx st) ?_
  intro a t hgrown
  exact wp_mono (hf a t) (fun _ _ h => hgrown.trans h) (fun _ _ h => hgrown.trans h)

theorem grows_pure {α : Type} (a : α) : Grows (pure a : RecoverM α) := fun _ => prefix_rfl

theorem grows_throw {α : Type} (message : Str) : Grows (throw message : RecoverM α) := fun _ => prefix_rfl

theorem grows_get : Grows (get : RecoverM SessionState) := fun _ => prefix_rfl

theorem grows_ite {α : Type} {c : Prop} [Decidable c] {x y : RecoverM α} (hx : Grows x) (hy : Grows y) :
    Grows (if c then x else y) := by
  split
  · exact hx
  · exact hy

theorem grows_insertPendingM (event : ExecProcessEvent) : Grows (insertPendingM event) := by
  intro st
  unfold wp insertPendingM
  cases st.orderedEvents.insertPending event with
  | ok orderedEvents | error message => exact prefix_rfl

theorem grows_publishReadyM : Grows publishReadyM := fun st => prefix_publishReadyLoop _ st

theorem grows_recoveredExitCode (response : ReadResponse) : Grows (recoveredExitCode response) := by
  rw [recoveredExitCode]
  cases response.exitCode with
  | some exitCode => exact grows_pure exitCode
  | none => exact grows_throw _

theorem grows_recoverChunk (response : ReadResponse) (targetSeq : Nat) (recovered : Recovered)
    (chunk : ProcessOutputChunk) : Grows (recoverChunk response targetSeq recovered chunk) := by
  refine grows_ite (grows_throw _) (grows_bind ?_ fun recovered => ?_)
  · refine grows_bind grows_get fun st => grows_ite ?_ (grows_pure _)
    refine grows_bind (grows_recoveredExitCode response) fun exitCode => ?_
    exact grows_bind (grows_insertPendingM _) fun _ => grows_bind grows_publishReadyM fun _ => grows_pure _
  · refine grows_bind grows_get fun st => grows_ite ?_ (grows_pure _)
    exact grows_bind (grows_insertPendingM _) fun _ => grows_bind grows_publishReadyM fun _ => grows_pure _

theorem grows_foldlM (response : ReadResponse) (targetSeq : Nat) (chunks : List ProcessOutputChunk) (recovered : Recovered) :
    Grows (chunks.foldlM (recoverChunk response targetSeq) recovered) := by
  induction chunks generalizing recovered with
  | nil => exact grows_pure recovered
  | cons chunk chunks ih =>
    exact grows_bind (grows_recoverChunk response targetSeq recovered chunk) ih

theorem grows_recoverClosed (response : ReadResponse) (targetSeq : Nat) : Grows (recoverClosed response targetSeq) :=
  grows_bind grows_get fun _ => grows_ite (grows_insertPendingM _) (grows_pure _)

theorem grows_recoverMissing (response : ReadResponse) (targetSeq : Nat) (recovered : Recovered) :
    Grows (recoverMissing response targetSeq recovered) := by
  refine grows_bind grows_get fun st => grows_ite (grows_ite (grows_throw _) ?_) (grows_ite (grows_throw _) ?_)
  · refine grows_bind (grows_recoveredExitCode response) fun exitCode => ?_
    exact grows_bind (grows_insertPendingM _) fun _ => grows_bind grows_publishReadyM fun _ => grows_pure _
  · exact grows_bind grows_publishReadyM fun _ => grows_pure _

theorem grows_amendExit (targetSeq : Nat) (sandboxDenied : Bool) :
    Grows (modify (amendExit targetSeq sandboxDenied) : RecoverM Unit) := fun _ => prefix_rfl

theorem grows_recoverEvents (response : ReadResponse) : Grows (recoverEvents response) := by
  rw [recoverEvents]
  cases response.failure with
  | some message => exact grows_throw _
  | none =>
    refine grows_bind grows_get fun st => grows_ite (grows_pure _) ?_
    refine grows_bind (grows_amendExit _ _) fun _ => grows_bind grows_get fun st => grows_ite (grows_throw _) ?_
    refine grows_bind (grows_foldlM _ _ _ _) fun recovered => ?_
    exact grows_bind (grows_recoverClosed _ _) fun _ => grows_recoverMissing _ _ _

/-! ## Holding back an event -/

def hold (st : SessionState) (seq : Nat) (event : ExecProcessEvent) : SessionState :=
  { st with
    orderedEvents :=
      { st.orderedEvents with
        pending := SortedAssoc.insert seq event st.orderedEvents.pending
        pendingBytes := st.orderedEvents.pendingBytes + event.retainedLen } }

theorem wp_insertPendingM {Q : Unit → SessionState → Prop} {E : Str → SessionState → Prop} {event : ExecProcessEvent}
    (hok : ∀ orderedEvents, st.orderedEvents.insertPending event = .ok orderedEvents → Q () { st with orderedEvents })
    (herror : ∀ message, st.orderedEvents.insertPending event = .error message → E message st) :
    wp (insertPendingM event) Q E st := by
  unfold wp insertPendingM
  cases hinsert : st.orderedEvents.insertPending event with
  | ok orderedEvents => exact hok orderedEvents hinsert
  | error message => exact herror message hinsert

/-- The next event is always held back, if it is not too large. -/
theorem insertPending_next (hdrained : Drained st) {event : ExecProcessEvent}
    (hseq : event.seq = some (st.lastSeq + 1)) (hfits : event.retainedLen ≤ maxPendingProcessEventBytes) :
    st.orderedEvents.insertPending event = .ok (st.hold (st.lastSeq + 1) event).orderedEvents := by
  have hnew : ¬ (SortedAssoc.get (st.lastSeq + 1) st.orderedEvents.pending).isSome := by
    rw [hdrained]
    exact Bool.false_ne_true
  have hsmall : ¬ event.retainedLen > maxPendingProcessEventBytes := by omega
  rw [OrderedSessionEvents.insertPending, hseq]
  dsimp only
  rw [if_neg hnew, beq_self_eq_true, if_neg hsmall]
  rfl

theorem insertPendingM_next (hdrained : Drained st) {event : ExecProcessEvent}
    (hseq : event.seq = some (st.lastSeq + 1)) (hfits : event.retainedLen ≤ maxPendingProcessEventBytes) :
    insertPendingM event st = .ok () (st.hold (st.lastSeq + 1) event) := by
  rw [insertPendingM, insertPending_next hdrained hseq hfits]
  rfl

/-! ## The gap before a chunk -/

section Gap

variable {response : ReadResponse} {recovered : Recovered} {chunk : ProcessOutputChunk} {E : Str → SessionState → Prop}
  {Q : Recovered → SessionState → Prop}

def SeesGap (response : ReadResponse) (recovered : Recovered) (chunk : ProcessOutputChunk) (st : SessionState) : Prop :=
  response.exited ∧ recovered.exitKnown = false ∧ st.lastSeq + 1 < chunk.seq

theorem seesGap_iff : (response.exited && !recovered.exitKnown &&
    decide (chunk.seq > st.lastSeq + 1)) ↔ SeesGap response recovered chunk st := by
  rw [SeesGap, Bool.and_eq_true, Bool.and_eq_true, Bool.not_eq_true', decide_eq_true_eq, and_assoc]

theorem wp_recoverExitBefore_of_not (h : ¬ SeesGap response recovered chunk st) :
    wp (recoverExitBefore response recovered chunk) Q E st ↔ Q recovered st := by
  rw [recoverExitBefore, wp_bind, wp_get]
  rw [if_neg (fun hgap => h (seesGap_iff.mp hgap)), wp_pure]

theorem wp_recoverExitBefore_of_gap (h : SeesGap response recovered chunk st) (hdrained : Drained st) {exitCode : Int}
    (hcode : response.exitCode = some exitCode)
    (hQ : ∀ publishedClosed, Q ⟨true, publishedClosed⟩ (st.hold (st.lastSeq + 1)
        (.exited (st.lastSeq + 1) exitCode (some response.sandboxDenied))).publishReady.1) :
    wp (recoverExitBefore response recovered chunk) Q E st := by
  rw [recoverExitBefore, wp_bind, wp_get]
  rw [if_pos (seesGap_iff.mpr h), wp_bind, recoveredExitCode, hcode]
  rw [wp_pure, wp_bind, wp_of_ok (insertPendingM_next hdrained rfl (zero_le _))]
  exact hQ _

end Gap

/-! ## From chunk to chunk -/

/-- The recovery of a session while some chunks are left: it is in step with the log, it has what it had and the chunks so far,
and nothing else but the exit. -/
structure Recovering (retained : Retained log) (afterSeq : Nat) (start : SessionState) (rest : List ProcessOutputChunk)
    (recovered : Recovered) (st : SessionState) : Prop where
  tracks : Tracks log st
  drained : Drained st
  after : afterSeq ≤ st.lastSeq
  suffix : rest <:+ retained.chunks afterSeq
  known : ∀ seq, start.Known seq → st.Known seq
  processed : ∀ chunk ∈ retained.chunks afterSeq, chunk ∈ rest ∨ st.Known chunk.seq
  sound : ∀ seq, st.Known seq →
    start.Known seq ∨ (∃ chunk ∈ retained.chunks afterSeq, chunk.seq = seq) ∨ recovered.exitKnown ∧ IsExit log seq
  exit : recovered.exitKnown = false → ∀ seq, IsExit log seq → seq ≤ retained.count → ¬ start.Known seq

section Recovering

variable {retained : Retained log} {afterSeq : Nat} {start : SessionState} {rest : List ProcessOutputChunk}
  {recovered : Recovered} {chunk : ProcessOutputChunk}

section

variable (h : Recovering retained afterSeq start (chunk :: rest) recovered st)

include h

theorem Recovering.mem_chunks : chunk ∈ retained.chunks afterSeq :=
  h.suffix.subset mem_cons_self

theorem Recovering.le_of_mem {later : ProcessOutputChunk} (hlater : later ∈ chunk :: rest) : chunk.seq ≤ later.seq := by
  have hsorted := (pairwise_chunks afterSeq).sublist h.suffix.sublist
  rcases mem_cons.mp hlater with rfl | hlater
  · exact le_refl _
  · exact le_of_lt ((pairwise_cons.mp hsorted).1 later hlater)

/-- What comes before the chunk can be had only if it is known. -/
theorem Recovering.known_of_lt {seq : Nat} (hlt : seq < chunk.seq) (hsome : start.Known seq ∨ retained.Keeps seq) :
    st.Known seq := by
  rcases hsome with hknown | hkeeps
  · exact h.known seq hknown
  · by_cases hle : seq ≤ st.lastSeq
    · exact .inl hle
    · have hcount := (Retained.mem_chunks.mp h.mem_chunks).2.1
      have hafter := h.after
      obtain ⟨found, hfound, rfl⟩ := @Keeps.exists_mem_chunks _ _ _ afterSeq hkeeps (by omega) (by omega)
      rcases h.processed found hfound with hrest | hknown
      · have hle' := h.le_of_mem hrest
        omega
      · exact hknown

/-- The gap that is seen before a chunk is the exit, or the recovery takes evicted output for it. -/
theorem Recovering.isExit_of_seesGap (hgap : SeesGap (retained.response afterSeq) recovered chunk st)
    (hright : ¬ MistakesGap retained start) :
    IsExit log (st.lastSeq + 1) := by
  obtain ⟨hexited, hunknown, hlt⟩ := hgap
  have hcount := (Retained.mem_chunks.mp h.mem_chunks).2.1
  have hlength := retained.count_le
  obtain ⟨event, hmem, hseq⟩ := log.numbered.exists_mem (le_add_left 1 st.lastSeq)
    (by omega : st.lastSeq + 1 ≤ log.events.length)
  have hnew : ¬ start.Known (st.lastSeq + 1) := fun hknown => h.drained.not_known (h.known _ hknown)
  cases event with
  | exited seq exitCode sandboxDenied => exact ⟨_, hmem, hseq, rfl⟩
  | failed message => cases hseq
  | closed seq =>
    -- the close is the last event, but the chunk comes later
    have hlast := log.closed_last _ hmem rfl
    rw [hseq] at hlast
    have hlast' := Option.some.inj hlast
    omega
  | output missed =>
    have hnumber : missed.seq = st.lastSeq + 1 := Option.some.inj hseq
    have hnotKept : ¬ retained.Keeps (st.lastSeq + 1) := fun hkeeps =>
      h.drained.not_known (h.known_of_lt hlt (.inr hkeeps))
    have hevicted : retained.Evicted (st.lastSeq + 1) := by
      refine ⟨missed, hmem, hnumber, ?_⟩
      by_contra hkept
      exact hnotKept ⟨missed, hmem, hnumber, by omega⟩
    obtain ⟨exit, hle, hexit⟩ := exited_eq_true.mp hexited
    refine absurd ⟨_, chunk.seq, exit, hlt, hcount, hnew, hevicted, ?_, keeps_of_mem_chunks h.mem_chunks, hle,
      h.exit hunknown exit hexit hle, hexit⟩ hright
    intro seq _ hseqlt
    rcases h.sound seq (known_iff.mpr (.inl (by omega))) with hknown | ⟨found, hfound, rfl⟩ | ⟨hexitKnown, -⟩
    · exact .inl hknown
    · exact .inr (keeps_of_mem_chunks hfound)
    · rw [hunknown] at hexitKnown
      cases hexitKnown

end

/-- A true next event that is held back and published keeps the client in step. -/
theorem Tracks.publishReady_hold (h : Tracks log st) (hdrained : Drained st) {event : ExecProcessEvent}
    (hmem : event ∈ log.events) (hseq : event.seq = some (st.lastSeq + 1))
    (hfits : event.retainedLen ≤ maxPendingProcessEventBytes) :
    Publishes log (st.hold (st.lastSeq + 1) event) (st.hold (st.lastSeq + 1) event).publishReady.1 ∧
      ∀ seq, (st.hold (st.lastSeq + 1) event).Known seq ↔ st.Known seq ∨ seq = st.lastSeq + 1 := by
  obtain ⟨htracks, -, hknown⟩ :=
    h.insertPending hmem hseq (lt_succ_self _) (insertPending_next hdrained hseq hfits)
  exact ⟨htracks.publishReady, hknown⟩

theorem last_le_publishReady (st : SessionState) : st.lastSeq ≤ st.publishReady.1.lastSeq :=
  @last_le_publishReadyLoop st _

section

variable (h : Recovering retained afterSeq start (chunk :: rest) recovered st)

include h

/-- If the gap is the exit, the recovery publishes it there. -/
theorem Recovering.wp_recoverExitBefore (hright : ¬ MistakesGap retained start) {E : Str → SessionState → Prop} :
    wp (recoverExitBefore (retained.response afterSeq) recovered chunk)
      (fun recovered t => Recovering retained afterSeq start (chunk :: rest) recovered t) E st := by
  by_cases hgap : SeesGap (retained.response afterSeq) recovered chunk st
  · have hexit := h.isExit_of_seesGap hgap hright
    have hcount := (Retained.mem_chunks.mp h.mem_chunks).2.1
    obtain ⟨exitCode, hcode, hmem⟩ := @exit_mem _ retained _ afterSeq hexit (le_trans (le_of_lt hgap.2.2) hcount)
    refine wp_recoverExitBefore_of_gap hgap h.drained hcode fun publishedClosed => ?_
    obtain ⟨hpublishes, hknown⟩ := h.tracks.publishReady_hold h.drained hmem rfl (zero_le _)
    have hall : ∀ seq, SessionState.Known _ seq ↔ _ := fun seq => (hpublishes.known seq).trans (hknown seq)
    refine ⟨hpublishes.tracks, hpublishes.drained, ?_, h.suffix, ?_, ?_, ?_, ?_⟩
    · exact h.after.trans (last_le_publishReady (st.hold _ _))
    · exact fun seq hold => (hall seq).mpr (.inl (h.known seq hold))
    · exact fun found hfound => (h.processed found hfound).imp_right fun hold => (hall _).mpr (.inl hold)
    · intro seq hseq
      rcases (hall seq).mp hseq with hold | rfl
      · rcases h.sound seq hold with hstart | hfound | ⟨-, hisExit⟩
        · exact .inl hstart
        · exact .inr (.inl hfound)
        · exact .inr (.inr ⟨rfl, hisExit⟩)
      · exact .inr (.inr ⟨rfl, hexit⟩)
    · intro hfalse
      cases hfalse
  · rw [wp_recoverExitBefore_of_not hgap]
    exact h

/-- The chunk becomes known, unless there is a gap before it and no room to wait. -/
theorem Recovering.wp_recoverOutput : wp (recoverOutput recovered chunk)
      (fun recovered' t => recovered'.exitKnown = recovered.exitKnown ∧ Recovering retained afterSeq start rest recovered' t)
      (fun _ t => t = st ∧ st.lastSeq + 1 < chunk.seq) st := by
  obtain ⟨hmem, hcount, -, hkept⟩ := Retained.mem_chunks.mp h.mem_chunks
  have hrest : rest <:+ retained.chunks afterSeq := (suffix_cons _ _).trans h.suffix
  rw [recoverOutput, wp_bind, wp_get]
  split
  next hlt =>
    change st.lastSeq < _ at hlt
    rw [wp_bind]
    refine wp_insertPendingM ?_ ?_
    · intro orderedEvents hinsert
      obtain ⟨htracks, -, hknown⟩ := h.tracks.insertPending hmem rfl hlt hinsert
      have hpublishes := htracks.publishReady
      have hlast : st.lastSeq ≤ orderedEvents.lastPublishedSeq := by
        rcases insertPending_eq_ok rfl hinsert with ⟨-, rfl⟩ | rfl
        · exact le_refl _
        · exact le_refl _
      have hall : ∀ seq, SessionState.Known _ seq ↔ _ := fun seq => (hpublishes.known seq).trans (hknown seq)
      refine ⟨rfl, hpublishes.tracks, hpublishes.drained, ?_, hrest, ?_, ?_, ?_, h.exit⟩
      · exact (h.after.trans hlast).trans (last_le_publishReady { st with orderedEvents })
      · exact fun seq hold => (hall seq).mpr (.inl (h.known seq hold))
      · intro found hfound
        rcases h.processed found hfound with hmem' | hold
        · rcases mem_cons.mp hmem' with rfl | hmem'
          · exact .inr ((hall _).mpr (.inr rfl))
          · exact .inl hmem'
        · exact .inr ((hall _).mpr (.inl hold))
      · intro seq hseq
        rcases (hall seq).mp hseq with hold | rfl
        · exact h.sound seq hold
        · exact .inr (.inl ⟨chunk, h.mem_chunks, rfl⟩)
    · intro message hinsert
      refine ⟨rfl, ?_⟩
      by_contra hnext
      have hseq : chunk.seq = st.lastSeq + 1 := by omega
      have hok := @insertPending_next _ h.drained (.output chunk) (congrArg some hseq)
        (retained.fits chunk hmem hkept hcount)
      rw [hok] at hinsert
      cases hinsert
  · refine ⟨rfl, h.tracks, h.drained, h.after, hrest, h.known, ?_, h.sound, h.exit⟩
    intro found hfound
    rcases h.processed found hfound with hmem' | hold
    · rcases mem_cons.mp hmem' with rfl | hmem'
      · exact .inr (.inl (by omega))
      · exact .inl hmem'
    · exact .inr hold

end

/-- All chunks become known, as long as no gap is mistaken. -/
theorem Recovering.wp_foldlM (h : Recovering retained afterSeq start (retained.chunks afterSeq) recovered st)
    (hright : ¬ MistakesGap retained start) :
    wp ((retained.chunks afterSeq).foldlM (recoverChunk (retained.response afterSeq) retained.count) recovered)
      (fun recovered t => Recovering retained afterSeq start [] recovered t) (fun _ t => Tracks log t) st := by
  refine Wp.wp_foldlM (I := fun rest recovered t => Recovering retained afterSeq start rest recovered t) ?_ _ h
  intro chunk rest recovered st h
  have hcount : ¬ chunk.seq > retained.count := not_lt.mpr (Retained.mem_chunks.mp h.mem_chunks).2.1
  rw [recoverChunk, if_neg hcount]
  refine wp_seq (h.wp_recoverExitBefore hright (E := fun _ t => Tracks log t)) ?_
  intro recovered t ht
  refine wp_mono ht.wp_recoverOutput (fun _ _ hnext => hnext.2) ?_
  rintro _ _ ⟨rfl, -⟩
  exact ht.tracks

/-! ## What is missing at the end -/

/-- At the end the exit is missing if it is not known, and so is evicted output that is needed. -/
structure Gathered (retained : Retained log) (start : SessionState) (recovered : Recovered) (st : SessionState) : Prop where
  tracks : Tracks log st
  exit : recovered.exitKnown = false → ∀ seq, IsExit log seq → seq ≤ retained.count → ¬ st.Known seq
  evicted : start.NeedsEvicted retained → ∃ seq ≤ retained.count, ¬ st.Known seq ∧ retained.Evicted seq

theorem Recovering.gathered (h : Recovering retained afterSeq start [] recovered st) :
    Gathered retained start recovered st := by
  refine ⟨h.tracks, ?_, ?_⟩
  · intro hunknown seq hexit hle hknown
    rcases h.sound seq hknown with hstart | ⟨chunk, hchunk, rfl⟩ | ⟨hexitKnown, -⟩
    · exact h.exit hunknown seq hexit hle hstart
    · obtain ⟨event, hmem, hseq, hisExit⟩ := hexit
      obtain rfl := log.numbered.eq_of_seq hmem (Retained.mem_chunks.mp hchunk).1 hseq rfl
      cases hisExit
    · rw [hunknown] at hexitKnown
      cases hexitKnown
  · rintro ⟨seq, hle, hneeded, hevicted⟩
    refine ⟨seq, hle, fun hknown => ?_, hevicted⟩
    rcases h.sound seq hknown with hstart | ⟨chunk, hchunk, rfl⟩ | ⟨-, hexit⟩
    · exact hneeded hstart
    · exact hevicted.not_keeps (keeps_of_mem_chunks hchunk)
    · exact hevicted.not_isExit hexit

/-- The close is held back, if it has happened. -/
theorem Gathered.wp_recoverClosed (h : Gathered retained start recovered st) :
    wp (recoverClosed (retained.response afterSeq) retained.count)
      (fun _ t => Gathered retained start recovered t) (fun _ t => Tracks log t) st := by
  rw [recoverClosed, wp_bind, wp_get]
  split
  next hcond =>
    rw [Bool.and_eq_true, Bool.and_eq_true] at hcond
    obtain ⟨⟨hclosed, hunpublished⟩, -⟩ := hcond
    obtain ⟨-, hmem⟩ := closed_mem hclosed
    have hlt : st.lastSeq < retained.count := by
      by_contra hle
      have htaken := (log.numbered.mem_take hmem rfl).mpr (not_lt.mp hle)
      have hpublished := any_eq_true.mpr ⟨_, htaken, (rfl : ExecProcessEvent.isClosed (.closed _))⟩
      rw [← h.tracks.closedPublished] at hpublished
      rw [hpublished] at hunpublished
      cases hunpublished
    refine wp_insertPendingM ?_ (fun _ _ => h.tracks)
    intro orderedEvents hinsert
    obtain ⟨htracks, -, hknown⟩ := h.tracks.insertPending hmem rfl hlt hinsert
    refine ⟨htracks, ?_, ?_⟩
    · rintro hunknown seq hexit hle hseq
      rcases (hknown seq).mp hseq with hold | rfl
      · exact h.exit hunknown seq hexit hle hold
      · obtain ⟨event, hevent, heventSeq, hisExit⟩ := hexit
        obtain rfl := log.numbered.eq_of_seq hevent hmem heventSeq rfl
        cases hisExit
    · intro hneeds
      obtain ⟨seq, hle, hmissing, hevicted⟩ := h.evicted hneeds
      refine ⟨seq, hle, fun hseq => ?_, hevicted⟩
      rcases (hknown seq).mp hseq with hold | rfl
      · exact hmissing hold
      · obtain ⟨chunk, hchunk, hchunkSeq, -⟩ := hevicted
        have heq := log.numbered.eq_of_seq hchunk hmem (congrArg some hchunkSeq) rfl
        cases heq
  · exact h

theorem isSome_get_iff {seq : Nat} (h : Tracks log st) :
    (SortedAssoc.get seq st.orderedEvents.pending).isSome ↔ seq ∈ st.orderedEvents.pending.map Prod.fst := by
  rw [mem_map, Option.isSome_iff_exists]
  constructor
  · rintro ⟨event, hget⟩
    exact ⟨(seq, event), SortedAssoc.mem_of_get hget, rfl⟩
  · rintro ⟨⟨seq', event⟩, hmem, rfl⟩
    exact ⟨event, h.sorted.get_of_mem hmem⟩

/-- The pending events that are counted are the known ones behind the last published one. -/
theorem Tracks.mem_pendingThrough (h : Tracks log st) {targetSeq seq : Nat} :
    seq ∈ st.orderedEvents.pendingThrough targetSeq ↔ (st.lastSeq < seq ∧ seq ≤ targetSeq) ∧ st.Known seq := by
  rw [OrderedSessionEvents.pendingThrough, mem_filter, ← isSome_get_iff h, Bool.and_eq_true, decide_eq_true_eq,
    decide_eq_true_eq]
  constructor
  · rintro ⟨hpending, hlt, hle⟩
    exact ⟨⟨hlt, hle⟩, .inr hpending⟩
  · rintro ⟨⟨hlt, hle⟩, hlast | hpending⟩
    · exact absurd hlast (not_le.mpr hlt)
    · exact ⟨hpending, hlt, hle⟩

theorem Tracks.pairwise_pendingThrough (h : Tracks log st) (targetSeq : Nat) :
    (st.orderedEvents.pendingThrough targetSeq).Pairwise (· < ·) :=
  Pairwise.filter _ (pairwise_map.mpr h.sorted)

/-- The number that `first_missing_seq` finds is not there, and all before it are. -/
theorem firstMissingSeq_spec {expected : Nat} {numbers : List Nat} (hsorted : numbers.Pairwise (· < ·))
    (hle : ∀ n ∈ numbers, expected ≤ n) :
    expected ≤ firstMissingSeq expected numbers ∧ firstMissingSeq expected numbers ∉ numbers ∧
      ∀ n, expected ≤ n → n < firstMissingSeq expected numbers → n ∈ numbers := by
  induction numbers generalizing expected with
  | nil =>
    refine ⟨le_refl _, not_mem_nil, ?_⟩
    intro n hn hlt
    exact absurd hlt (not_lt.mpr hn)
  | cons first numbers ih =>
    obtain ⟨hfirst, hrest⟩ := pairwise_cons.mp hsorted
    rw [firstMissingSeq]
    split
    next heq =>
      subst heq
      obtain ⟨hexpected, hmissing, hbefore⟩ := @ih (first + 1) hrest hfirst
      refine ⟨le_of_succ_le hexpected, ?_, ?_⟩
      · intro hmem
        rcases mem_cons.mp hmem with heq | hmem
        · omega
        · exact hmissing hmem
      · intro n hn hlt
        rcases eq_or_lt_of_le hn with rfl | hn
        · exact mem_cons_self
        · exact mem_cons_of_mem _ (hbefore n hn hlt)
    next hne =>
      have hlt : expected < first := lt_of_le_of_ne (hle first mem_cons_self) (Ne.symm hne)
      refine ⟨le_refl _, ?_, ?_⟩
      · intro hmem
        rcases mem_cons.mp hmem with heq | hmem
        · omega
        · have hlt' := hfirst expected hmem
          omega
      · intro n hn hlt'
        exact absurd hlt' (not_lt.mpr hn)

/-- The end of the recovery: it fails, or everything is published and no evicted output was needed. -/
theorem Gathered.wp_recoverMissing (h : Gathered retained start recovered st) :
    wp (recoverMissing (retained.response afterSeq) retained.count recovered)
      (fun _ t => Tracks log t ∧ retained.count ≤ t.lastSeq ∧ ¬ start.NeedsEvicted retained)
      (fun _ t => Tracks log t) st := by
  have hmem := fun seq => @Tracks.mem_pendingThrough _ _ h.tracks retained.count seq
  have hsorted := h.tracks.pairwise_pendingThrough retained.count
  have hnodup : (st.orderedEvents.pendingThrough retained.count).Nodup := hsorted.imp ne_of_lt
  have hrange : ∀ seq ∈ st.orderedEvents.pendingThrough retained.count,
      st.lastSeq < seq ∧ seq ≤ retained.count := fun seq hseq => ((hmem seq).mp hseq).1
  -- what is not known is missing behind the last published event
  have hmissing : ∀ seq, seq ≤ retained.count → ¬ st.Known seq → (st.lastSeq < seq ∧ seq ≤ retained.count) ∧
        seq ∉ st.orderedEvents.pendingThrough retained.count := by
    intro seq hle hunknown
    exact ⟨⟨lt_of_not_known hunknown, hle⟩, fun hseq => hunknown ((hmem seq).mp hseq).2⟩
  rw [recoverMissing, wp_bind, wp_get]
  split
  next hcond =>
    rw [Bool.and_eq_true, Bool.not_eq_true'] at hcond
    obtain ⟨exit, hle, hexit⟩ := exited_eq_true.mp hcond.1
    have hexitMissing := hmissing exit hle (h.exit hcond.2 exit hexit hle)
    dsimp only
    split
    · exact h.tracks
    next hone =>
      have hcount := not_not.mp hone
      have hunique := fun seq hseq => @eq_of_count_eq_one seq _ _ _ hnodup hrange hcount exit hseq hexitMissing
      -- the number found is that of the exit
      obtain ⟨hfirst, hnotMem, hbefore⟩ := firstMissingSeq_spec hsorted (fun seq hseq => (hrange seq hseq).1)
      have hfirstLe : firstMissingSeq (st.lastSeq + 1)
          (st.orderedEvents.pendingThrough retained.count) ≤ exit := by
        by_contra hlt
        exact hexitMissing.2 (hbefore exit hexitMissing.1.1 (not_le.mp hlt))
      have hfound := hunique _ ⟨⟨hfirst, le_trans hfirstLe hle⟩, hnotMem⟩
      obtain ⟨exitCode, hcode, htrue⟩ := @exit_mem _ retained exit afterSeq hexit hle
      rw [wp_bind, recoveredExitCode, hcode]
      rw [wp_pure, hfound, wp_bind]
      refine wp_insertPendingM ?_ (fun _ _ => h.tracks)
      intro orderedEvents hinsert
      obtain ⟨htracks, -, hknown⟩ := h.tracks.insertPending htrue rfl hexitMissing.1.1 hinsert
      have hpublishes := htracks.publishReady
      refine ⟨hpublishes.tracks, hpublishes.drained.le_last ?_, ?_⟩
      · intro seq _ hseqLe
        refine (hpublishes.known seq).mpr ((hknown seq).mpr ?_)
        by_cases hseqKnown : st.Known seq
        · exact .inl hseqKnown
        · exact .inr (hunique seq (hmissing seq hseqLe hseqKnown))
      · intro hneeds
        obtain ⟨seq, hseqLe, hseqMissing, hevicted⟩ := h.evicted hneeds
        have heq := hunique seq (hmissing seq hseqLe hseqMissing)
        rw [heq] at hevicted
        exact hevicted.not_isExit hexit
  · dsimp only
    split
    · exact h.tracks
    next hnone =>
      have hcount := not_not.mp hnone
      have hall : ∀ seq, st.lastSeq < seq → seq ≤ retained.count → st.Known seq := by
        intro seq hlt hle
        exact ((hmem seq).mp (mem_of_count_eq_zero hnodup hrange hcount hlt hle)).2
      have hpublishes := h.tracks.publishReady
      refine ⟨hpublishes.tracks, hpublishes.drained.le_last ?_, ?_⟩
      · intro seq hseq hle
        exact (hpublishes.known seq).mpr (hall seq (lt_of_le_of_lt (last_le_publishReady st) hseq) hle)
      · intro hneeds
        obtain ⟨seq, hle, hunknown, -⟩ := h.evicted hneeds
        exact hunknown (hall seq (hmissing seq hle hunknown).1.1 hle)

end Recovering

end Dcode.ExecServer.SessionState
