import Dcode.ExecServer.Proofs.LocalProcessProofs
import Dcode.ExecServer.Proofs.RecoveryProofs

/-!
# When recovery is true to the log

The parts of `recover_events` in a row: it is true to the log unless it takes evicted output for the exit, and in that case an
exit is published under the number of that output.
-/

namespace Dcode.ExecServer.SessionState

open Retained Wp Bool Nat SortedAssoc

variable {log : ProcessLog} {retained : Retained log} {st : SessionState} {afterSeq : Nat}

/-! ## Before the first chunk -/

theorem amendPendingExit_eq {targetSeq : Nat} {sandboxDenied : Bool} {pending : List (Nat × ExecProcessEvent)}
    (h : ∀ seq eventSeq exitCode denied, (seq, .exited eventSeq exitCode denied) ∈ pending → seq ≤ targetSeq →
      denied = some sandboxDenied) : amendPendingExit targetSeq sandboxDenied pending = pending := by
  induction pending with
  | nil => rfl
  | cons entry rest ih =>
    obtain ⟨seq, event⟩ := entry
    have hrest := ih fun seq' eventSeq exitCode denied hmem => h seq' eventSeq exitCode denied (List.mem_cons_of_mem _ hmem)
    by_cases hle : seq ≤ targetSeq
    · cases event with
      | exited eventSeq exitCode denied =>
        obtain rfl := h seq eventSeq exitCode denied List.mem_cons_self hle
        simp [amendPendingExit]
      | output chunk | closed eventSeq | failed message => simp [amendPendingExit, hrest]
    · cases event <;> simp [amendPendingExit, hle]

/-- A true exit that is pending says already what the response says of the sandbox. -/
theorem Tracks.amendExit_eq (h : Tracks log st) :
    amendExit retained.count (retained.response afterSeq).sandboxDenied st = st := by
  have hsame : amendPendingExit retained.count (retained.response afterSeq).sandboxDenied st.orderedEvents.pending =
      st.orderedEvents.pending := by
    refine amendPendingExit_eq ?_
    intro seq eventSeq exitCode denied hpending hle
    obtain ⟨hmem, hseq, -⟩ := h.pending seq _ hpending
    obtain ⟨exitCode', -, htrue⟩ := @exit_mem _ retained seq afterSeq ⟨_, hmem, hseq, rfl⟩ hle
    have heq := log.numbered.eq_of_seq hmem htrue hseq rfl
    injection heq
  rw [amendExit, hsame]

/-- The close has no number of another event. -/
theorem Tracks.closeConflicts_eq_false (h : Tracks log st) :
    closeConflicts (retained.response afterSeq) retained.count st.orderedEvents = false := by
  rw [closeConflicts, and_eq_false_iff, or_eq_false_iff]
  by_cases hclosed : (retained.response afterSeq).closed
  · right
    obtain ⟨-, hmem⟩ := closed_mem hclosed
    constructor
    · cases hget : get retained.count st.orderedEvents.pending with
      | none => rfl
      | some event =>
        obtain ⟨htrue, hseq, -⟩ := h.pending _ _ (mem_of_get hget)
        rw [log.numbered.eq_of_seq htrue hmem hseq rfl]
        rfl
    · rw [List.any_eq_false]
      intro chunk hchunk heq
      have houtput := (Retained.mem_chunks.mp hchunk).1
      have hsame := log.numbered.eq_of_seq houtput hmem (congrArg some (eq_of_beq heq)) rfl
      cases hsame
  · exact .inl (eq_false_iff.mpr hclosed)

def knowsExit (targetSeq : Nat) (st : SessionState) : Bool :=
  st.orderedEvents.exitPublished || st.orderedEvents.pending.any fun entry => entry.1 ≤ targetSeq && entry.2.isExited

theorem Tracks.knowsExit_iff (h : Tracks log st) : st.knowsExit retained.count ↔
      st.orderedEvents.exitPublished ∨ ∃ seq ≤ retained.count, IsExit log seq ∧ st.Known seq := by
  rw [knowsExit, or_eq_true]
  constructor
  · rintro (hpublished | hpending)
    · exact .inl hpublished
    · right
      obtain ⟨⟨seq, event⟩, hmem, hexit⟩ := List.any_eq_true.mp hpending
      rw [and_eq_true, decide_eq_true_eq] at hexit
      obtain ⟨htrue, hseq, -⟩ := h.pending seq event hmem
      refine ⟨seq, hexit.1, ⟨event, htrue, hseq, hexit.2⟩, .inr ?_⟩
      rw [h.sorted.get_of_mem hmem]
      rfl
  · rintro (hpublished | ⟨seq, hle, ⟨event, hmem, hseq, hexit⟩, hlast | hpending⟩)
    · exact .inl hpublished
    · left
      rw [h.exitPublished]
      exact List.any_eq_true.mpr ⟨event, (log.numbered.mem_take hmem hseq).mpr hlast, hexit⟩
    · right
      obtain ⟨event', hget⟩ := Option.isSome_iff_exists.mp hpending
      have hmem' := mem_of_get hget
      obtain ⟨htrue, hseq', -⟩ := h.pending _ _ hmem'
      obtain rfl := log.numbered.eq_of_seq hmem htrue hseq hseq'
      refine List.any_eq_true.mpr ⟨_, hmem', ?_⟩
      rw [and_eq_true, decide_eq_true_eq]
      exact ⟨hle, hexit⟩

theorem Tracks.recovering (h : Tracks log st) (hdrained : Drained st) (hafter : afterSeq ≤ st.lastSeq) :
    Recovering retained afterSeq st (retained.chunks afterSeq) ⟨st.knowsExit retained.count, false⟩ st where
  tracks := h
  drained := hdrained
  after := hafter
  suffix := List.suffix_rfl
  known := fun _ hknown => hknown
  processed := fun _ hchunk => .inl hchunk
  sound := fun _ hknown => .inl hknown
  exit := by
    intro hunknown seq hexit hle hknown
    have hknows := (@Tracks.knowsExit_iff _ retained _ h).mpr (.inr ⟨seq, hle, hexit, hknown⟩)
    rw [hknows] at hunknown
    cases hunknown

def recoverRest (response : ReadResponse) (targetSeq : Nat) (recovered : Recovered) : RecoverM Bool := do
  let recovered ← response.chunks.foldlM (recoverChunk response targetSeq) recovered
  recoverClosed response targetSeq
  recoverMissing response targetSeq recovered

/-- If the client is behind the response, the chunks are recovered. -/
theorem Tracks.wp_recoverEvents (h : Tracks log st) (hopen : st.orderedEvents.failure = none)
    (hbehind : st.lastSeq < retained.count) {Q : Bool → SessionState → Prop}
    {E : Str → SessionState → Prop} :
    wp (recoverEvents (retained.response afterSeq)) Q E st ↔
      wp (recoverRest (retained.response afterSeq) retained.count ⟨st.knowsExit retained.count, false⟩) Q E st := by
  have hunclosed : st.orderedEvents.closedPublished = false := by
    rw [h.closedPublished, eq_false_iff]
    intro hany
    obtain ⟨event, hevent, hclosed⟩ := List.any_eq_true.mp hany
    have hmem := List.mem_of_mem_take hevent
    have hle := (log.numbered.mem_take hmem (log.closed_last _ hmem hclosed)).mp hevent
    have hcount := retained.count_le
    omega
  have htarget : (retained.response afterSeq).nextSeq - 1 = retained.count := Nat.add_sub_cancel _ _
  have hgo : ¬ (st.orderedEvents.failure.isSome || st.orderedEvents.closedPublished ||
      decide (retained.count ≤ st.lastSeq)) := by
    rw [hopen, hunclosed]
    simpa using hbehind
  have hfailure : (retained.response afterSeq).failure = none := rfl
  rw [recoverEvents, hfailure]
  rw [htarget, wp_bind, wp_get, if_neg hgo, wp_bind, wp_modify, h.amendExit_eq, wp_bind, wp_get,
    h.closeConflicts_eq_false]
  rfl

theorem recoverEvents_of_done (h : st.orderedEvents.failure.isSome ∨ retained.count ≤ st.lastSeq) :
    recoverEvents (retained.response afterSeq) st = .ok false st := by
  have htarget : (retained.response afterSeq).nextSeq - 1 = retained.count := Nat.add_sub_cancel _ _
  have hdone : (st.orderedEvents.failure.isSome || st.orderedEvents.closedPublished ||
      decide (retained.count ≤ st.lastSeq)) := by
    rcases h with hfailed | hle
    · rw [hfailed]
      rfl
    · rw [decide_eq_true hle, Bool.or_true]
  change (if _ then _ else _ : RecoverM Bool) st = _
  rw [htarget, if_pos hdone]
  rfl

/-! ## Recovery without a mistake -/

theorem Tracks.recoversTruly_of_done (h : Tracks log st) (hdone : retained.count ≤ st.lastSeq) :
    RecoversTruly log retained st (retained.response afterSeq) := by
  have hsame := @recoverEvents_of_done _ retained st afterSeq (.inr hdone)
  refine ⟨wp_after (grows_recoverEvents _ st), ?_, ?_, ?_⟩
  · rw [after, hsame]
    exact h.faithful
  · intro closed st' hok
    rw [hsame] at hok
    injection hok with _ hst
    rw [← hst]
    exact hdone
  · rintro ⟨seq, hle, hunknown, -⟩
    exact absurd (.inl (le_trans hle hdone)) hunknown

/-- If no gap is mistaken, recovery is true to the log. -/
theorem Tracks.recoversTruly (h : Tracks log st) (hdrained : Drained st)
    (hafter : afterSeq ≤ st.lastSeq) (hopen : st.orderedEvents.failure = none)
    (hright : ¬ MistakesGap retained st) : RecoversTruly log retained st (retained.response afterSeq) := by
  rcases lt_or_ge st.lastSeq retained.count with hbehind | hdone
  · have hspec : wp (recoverEvents (retained.response afterSeq))
        (fun _ t => Tracks log t ∧ retained.count ≤ t.lastSeq ∧ ¬ st.NeedsEvicted retained)
        (fun _ t => Tracks log t) st := by
      rw [h.wp_recoverEvents hopen hbehind, recoverRest]
      refine wp_seq ((h.recovering hdrained hafter).wp_foldlM hright) ?_
      intro recovered t ht
      refine wp_seq ht.gathered.wp_recoverClosed ?_
      intro _ t ht
      exact ht.wp_recoverMissing
    refine ⟨wp_after (grows_recoverEvents _ st), ?_, ?_, ?_⟩
    · exact (wp_after (wp_mono hspec (fun _ _ ht => ht.1) (fun _ _ ht => ht))).faithful
    · intro closed st' hok
      exact (wp_ok hspec hok).2.1
    · intro hneeds
      cases hresult : recoverEvents (retained.response afterSeq) st with
      | ok closed st' => exact absurd hneeds (wp_ok hspec hresult).2.2
      | error message st' => exact ⟨message, st', rfl⟩
  · exact h.recoversTruly_of_done hdone

/-! ## Recovery with a mistake -/

def Invented (gap : Nat) (st : SessionState) : Prop :=
  ∃ exitCode denied, (st.published.filter (·.seq.isSome))[gap - 1]? = some (.exited gap exitCode denied)

theorem Invented.of_prefix {gap : Nat} {st' : SessionState} (h : Invented gap st) (hgrown : st.published <+: st'.published) :
    Invented gap st' := by
  obtain ⟨exitCode, denied, hget⟩ := h
  obtain ⟨more, hmore⟩ := hgrown
  refine ⟨exitCode, denied, ?_⟩
  rw [← hmore, List.filter_append, List.getElem?_append_left (List.getElem?_eq_some_iff.mp hget).1]
  exact hget

theorem Grows.wp_invented {α : Type} {x : RecoverM α} (hx : Grows x) {gap : Nat} (h : Invented gap st) :
    wp x (fun _ t => Invented gap t) (fun _ t => Invented gap t) st :=
  wp_mono (hx st) (fun _ _ hgrown => h.of_prefix hgrown) (fun _ _ hgrown => h.of_prefix hgrown)

/-- An exit that is held back as the next event is published under the next number. -/
theorem Tracks.invented (h : Tracks log st) (exitCode : Int) (denied : Option Bool) :
    Invented (st.lastSeq + 1) (st.hold (st.lastSeq + 1) (.exited (st.lastSeq + 1) exitCode denied)).publishReady.1 := by
  let event : ExecProcessEvent := .exited (st.lastSeq + 1) exitCode denied
  let held := st.hold (st.lastSeq + 1) event
  have hget : get (held.lastSeq + 1) held.orderedEvents.pending = some event := by
    change get (st.lastSeq + 1) (insert _ _ _) = some event
    rw [get_insert, if_pos rfl]
  obtain ⟨rounds, hrounds⟩ : ∃ rounds, held.orderedEvents.pending.length = rounds + 1 := by
    refine Nat.exists_eq_succ_of_ne_zero ?_
    intro hzero
    rw [List.length_eq_zero_iff.mp hzero] at hget
    cases hget
  have hpublish : (held.publishNext event).published <+: held.publishReady.1.published := by
    rw [SessionState.publishReady, hrounds, publishReadyLoop, hget]
    exact prefix_publishReadyLoop rounds _
  refine Invented.of_prefix ⟨exitCode, denied, ?_⟩ hpublish
  change ((st.published ++ [event]).filter (·.seq.isSome))[st.lastSeq]? = some event
  have hlength := h.length_published
  rw [List.filter_append, List.getElem?_append_right (by omega), hlength, Nat.sub_self]
  rfl

/-- If a gap is mistaken, an exit is published under the number of output. -/
theorem Tracks.wp_foldlM_invented (h : Tracks log st) (hdrained : Drained st)
    (hafter : afterSeq ≤ st.lastSeq) {gap later exit : Nat} (hlater : gap < later)
    (hcount : later ≤ retained.count) (hunknown : ¬ st.Known gap) (hevicted : retained.Evicted gap)
    (hbefore : ∀ seq, 1 ≤ seq → seq < gap → st.Known seq ∨ retained.Keeps seq) (hkept : retained.Keeps later)
    (hexitLe : exit ≤ retained.count) (hexit : IsExit log exit) (hexitUnknown : ¬ st.Known exit) :
    wp ((retained.chunks afterSeq).foldlM (recoverChunk (retained.response afterSeq) retained.count)
        ⟨st.knowsExit retained.count, false⟩)
      (fun _ t => Invented gap t) (fun _ t => Invented gap t) st := by
  have hexited : (retained.response afterSeq).exited := exited_eq_true.mpr ⟨exit, hexitLe, hexit⟩
  have hgapAfter := lt_of_not_known hunknown
  -- the exit is not known at the start
  have hknows : st.knowsExit retained.count = false := by
    rw [eq_false_iff]
    intro htrue
    rcases (@Tracks.knowsExit_iff _ retained _ h).mp htrue with hpublished | ⟨seq, -, hseq, hknown⟩
    · rw [h.exitPublished] at hpublished
      obtain ⟨event, hevent, hisExit⟩ := List.any_eq_true.mp hpublished
      have hmem := List.mem_of_mem_take hevent
      obtain ⟨seq, hseq⟩ := log.numbered.exists_seq hmem
      have hle := (log.numbered.mem_take hmem hseq).mp hevent
      rw [hexit.unique ⟨event, hmem, hseq, hisExit⟩] at hexitUnknown
      exact hexitUnknown (.inl hle)
    · rw [hseq.unique hexit] at hknown
      exact hexitUnknown hknown
  obtain ⟨chunk₀, hchunk₀, hchunkSeq⟩ := @Keeps.exists_mem_chunks _ _ _ afterSeq hkept hcount (by omega)
  have hstart : Invented gap st ∨ Recovering retained afterSeq st (retained.chunks afterSeq)
      ⟨st.knowsExit retained.count, false⟩ st ∧ st.knowsExit retained.count = false ∧
      ∃ chunk ∈ retained.chunks afterSeq, gap < chunk.seq :=
    .inr ⟨h.recovering hdrained hafter, hknows, chunk₀, hchunk₀, by omega⟩
  -- until the first chunk behind the gap, everything goes on as it should
  refine wp_mono (Wp.wp_foldlM (I := fun rest recovered t => Invented gap t ∨
    Recovering retained afterSeq st rest recovered t ∧ recovered.exitKnown = false ∧ ∃ chunk ∈ rest, gap < chunk.seq)
    (E := fun _ t => Invented gap t) ?_ _ hstart) ?_ (fun _ _ ht => ht)
  swap
  · rintro recovered t (hinvented | ⟨-, -, chunk, hchunk, -⟩)
    · exact hinvented
    · cases hchunk
  intro chunk rest recovered t ht
  rcases ht with hinvented | ⟨ht, hexitKnown, chunk', hchunk', hgap'⟩
  · exact wp_mono ((grows_recoverChunk _ _ recovered chunk).wp_invented hinvented) (fun _ _ h => .inl h) (fun _ _ h => h)
  · have hchunkLe := (Retained.mem_chunks.mp ht.mem_chunks).2.1
    have hgapUnknown : ¬ t.Known gap := by
      intro hknown
      rcases ht.sound gap hknown with hold | ⟨found, hfound, rfl⟩ | ⟨htrue, -⟩
      · exact hunknown hold
      · exact hevicted.not_keeps (keeps_of_mem_chunks hfound)
      · rw [hexitKnown] at htrue
        cases htrue
    have hknownBefore : ∀ seq, 1 ≤ seq → seq < gap → seq < chunk.seq → t.Known seq := fun seq hpos hlt hltChunk =>
      ht.known_of_lt hltChunk (hbefore seq hpos hlt)
    have hlast := lt_of_not_known hgapUnknown
    rw [recoverChunk, if_neg (not_lt.mpr hchunkLe), wp_bind]
    rcases lt_or_ge gap chunk.seq with hgap | hle
    · -- the gap is taken for the exit
      have hnext : t.lastSeq + 1 = gap := by
        by_contra hne
        exact ht.drained.not_known (hknownBefore _ (le_add_left 1 _) (by omega) (by omega))
      obtain ⟨exitCode, hcode, -⟩ := @exit_mem _ retained exit afterSeq hexit hexitLe
      refine wp_recoverExitBefore_of_gap ⟨hexited, hexitKnown, by omega⟩ ht.drained hcode fun publishedClosed => ?_
      have hinvented := ht.tracks.invented exitCode (some (retained.response afterSeq).sandboxDenied)
      rw [hnext] at hinvented ⊢
      have hgrows : Grows (recoverOutput ⟨true, publishedClosed⟩ chunk) := by
        refine grows_bind grows_get fun st => grows_ite ?_ (grows_pure _)
        exact grows_bind (grows_insertPendingM _) fun _ => grows_bind grows_publishReadyM fun _ => grows_pure _
      exact wp_mono (hgrows.wp_invented hinvented) (fun _ _ h => .inl h) (fun _ _ h => h)
    · -- a chunk before the gap is the next event
      have hnoGap : ¬ t.lastSeq + 1 < chunk.seq := fun hlt =>
        ht.drained.not_known (hknownBefore _ (le_add_left 1 _) (by omega) hlt)
      rw [wp_recoverExitBefore_of_not (fun hsees => hnoGap hsees.2.2)]
      refine wp_mono ht.wp_recoverOutput ?_ ?_
      · rintro recovered' t' ⟨hsame, ht'⟩
        rw [hexitKnown] at hsame
        refine .inr ⟨ht', hsame, chunk', ?_, hgap'⟩
        rcases List.mem_cons.mp hchunk' with rfl | hchunk'
        · omega
        · exact hchunk'
      · rintro message t' ⟨rfl, hlt⟩
        exact absurd hlt hnoGap

/-- If a gap is mistaken, what is published is not the log. -/
theorem Tracks.not_faithful (h : Tracks log st) (hdrained : Drained st)
    (hafter : afterSeq ≤ st.lastSeq) (hopen : st.orderedEvents.failure = none)
    (hmistake : MistakesGap retained st) :
    ¬ Faithful log (after (recoverEvents (retained.response afterSeq)) st) := by
  obtain ⟨gap, later, exit, hlater, hcount, hunknown, hevicted, hbefore, hkept, hexitLe, hexitUnknown, hexit⟩ := hmistake
  have hbehind : st.lastSeq < retained.count := by
    have hgapAfter := lt_of_not_known hunknown
    omega
  have hinvented : Invented gap (after (recoverEvents (retained.response afterSeq)) st) := by
    refine wp_after ?_
    rw [h.wp_recoverEvents hopen hbehind, recoverRest, wp_bind]
    refine wp_mono (h.wp_foldlM_invented hdrained hafter hlater hcount hunknown hevicted hbefore hkept hexitLe hexit
      hexitUnknown) ?_ (fun _ _ ht => ht)
    intro recovered t ht
    have hgrows : Grows (do
        recoverClosed (retained.response afterSeq) retained.count
        recoverMissing (retained.response afterSeq) retained.count recovered) :=
      grows_bind (grows_recoverClosed _ _) fun _ => grows_recoverMissing _ _ _
    exact hgrows.wp_invented ht
  intro hfaithful
  obtain ⟨exitCode, denied, hget⟩ := hinvented
  rw [hfaithful] at hget
  -- the log has output under that number
  have hmem := List.mem_of_mem_take (List.mem_of_getElem? hget)
  exact hevicted.not_isExit ⟨_, hmem, rfl, rfl⟩

/-! ## The two together -/

/-- Recovery is true to the log exactly if the session has not failed before and no evicted output is taken for the exit. -/
theorem recoverEvents_truly_iff (log : ProcessLog) (retained : Retained log) (before since : List ExecProcessEvent)
    (htrue : ∀ e ∈ before ++ since, e ∈ log.events) :
    RecoversTruly log retained (deliver (before ++ since))
        (retained.response (deliver before).orderedEvents.lastPublishedSeq) ↔
      if (deliver (before ++ since)).orderedEvents.failure.isSome = true then
        retained.count ≤ (deliver (before ++ since)).orderedEvents.lastPublishedSeq
      else ¬ MistakesGap retained (deliver (before ++ since)) := by
  obtain ⟨htracks, hdrained⟩ := tracks_deliver htrue
  have hafter : (deliver before).lastSeq ≤ (deliver (before ++ since)).lastSeq := by
    rw [deliver, deliver, List.foldl_append]
    exact last_le_foldl since
  split
  next hfailed =>
    constructor
    · intro htruly
      exact htruly.reaches _ _ (recoverEvents_of_done (.inl hfailed))
    · exact htracks.recoversTruly_of_done
  next hopen =>
    have hopen' := Option.not_isSome_iff_eq_none.mp hopen
    constructor
    · intro htruly hmistake
      exact htracks.not_faithful hdrained hafter hopen' hmistake htruly.faithful
    · exact htracks.recoversTruly hdrained hafter hopen'

/-! ## A process whose first output is evicted -/

section Instances

def fullChunk : Bytes := List.replicate retainedOutputBytesPerProcess 0

theorem length_fullChunk : fullChunk.length = retainedOutputBytesPerProcess := List.length_replicate

def writesThenExits (chunk : Bytes) : RunningProcess :=
  (RunningProcess.start false 256 1024).run (fun _ _ => false) [.output .stdout [0], .output .stdout chunk, .exit 0]

theorem output_writesThenExits (chunk : Bytes) : (writesThenExits chunk).output =
    (evict (fun retained : ProcessOutputChunk => retained.chunk.length) retainedOutputChunksPerProcess
      retainedOutputBytesPerProcess [⟨1, .stdout, [0]⟩, ⟨2, .stdout, chunk⟩] (1 + chunk.length)).1 := rfl

theorem sound_writesThenExits (chunk : Bytes) : (writesThenExits chunk).Sound :=
  (RunningProcess.sound_start false 256 1024).run _ _

def evictingLog : ProcessLog := (sound_writesThenExits fullChunk).isLog.toLog

def evictingRetained : Retained evictingLog where
  count := 3
  count_le := Nat.le_refl 3
  evictedThrough := 1
  fits := by
    intro chunk hmem hlt _
    rcases List.mem_cons.mp hmem with heq | hmem
    · injection heq with heq
      rw [heq] at hlt
      exact absurd hlt (Nat.lt_irrefl 1)
    · rcases List.mem_cons.mp hmem with heq | hmem
      · injection heq with heq
        rw [heq]
        exact length_fullChunk.le
      · cases List.mem_singleton.mp hmem

theorem output_evicting : (writesThenExits fullChunk).output = [⟨2, .stdout, fullChunk⟩] := by
  rw [output_writesThenExits, length_fullChunk]
  rfl

/-- The read of the server, as a client that has been told nothing makes it. -/
theorem execRead_evicting : (writesThenExits fullChunk).execRead (some 0) none = evictingRetained.response 0 := by
  refine (sound_writesThenExits fullChunk).execRead_eq rfl ?_ 0
  exact output_evicting

theorem not_known_new (seq : Nat) (h : 0 < seq) : ¬ ({} : SessionState).Known seq := by
  rintro (hle | hpending)
  · exact absurd hle (not_le.mpr h)
  · cases hpending

/-- A client that has been told nothing takes the evicted byte for the exit. -/
theorem recoverEvents_not_truly : (writesThenExits fullChunk).execRead (some 0) none = evictingRetained.response 0 ∧
      ¬ RecoversTruly evictingLog evictingRetained (deliver []) ((writesThenExits fullChunk).execRead (some 0) none) := by
  refine ⟨execRead_evicting, ?_⟩
  rw [execRead_evicting]
  intro htruly
  have hfirst : .output ⟨1, .stdout, [0]⟩ ∈ evictingLog.events := List.mem_cons_self
  have hsecond : .output ⟨2, .stdout, fullChunk⟩ ∈ evictingLog.events := List.mem_cons_of_mem _ List.mem_cons_self
  have hexit : .exited 3 0 (some false) ∈ evictingLog.events :=
    List.mem_cons_of_mem _ (List.mem_cons_of_mem _ List.mem_cons_self)
  have hmistake : MistakesGap evictingRetained (deliver []) := by
    refine ⟨1, 2, 3, by decide, by decide, not_known_new 1 (by decide), ⟨_, hfirst, rfl, Nat.le_refl 1⟩, ?_,
      ⟨_, hsecond, rfl, by decide⟩, Nat.le_refl 3, not_known_new 3 (by decide), _, hexit, rfl, rfl⟩
    omega
  exact tracks_new.not_faithful rfl (Nat.le_refl 0) rfl hmistake htruly.faithful

def shortLog : ProcessLog :=
  IsLog.toLog ((RunningProcess.sound_start false 256 1024).run (fun _ _ => false)
    [.output .stdout [0], .exit 0, .finishStream, .finishStream, .maybeClose]).isLog

def shortRetained : Retained shortLog where
  count := 3
  count_le := Nat.le_refl 3
  evictedThrough := 0
  fits := by
    intro chunk hmem _ _
    rcases List.mem_cons.mp hmem with heq | hmem
    · injection heq with heq
      rw [heq]
      exact Nat.le_of_ble_eq_true rfl
    · rcases List.mem_cons.mp hmem with heq | hmem
      · cases heq
      · cases List.mem_singleton.mp hmem

/-- The exit is found between the output and the close. -/
theorem recoverEvents_truly_short :
    RecoversTruly shortLog shortRetained (deliver [.output ⟨1, .stdout, [0]⟩, .closed 3])
      (shortRetained.response (deliver [.output ⟨1, .stdout, [0]⟩]).orderedEvents.lastPublishedSeq) := by
  refine (recoverEvents_truly_iff shortLog shortRetained [.output ⟨1, .stdout, [0]⟩] [.closed 3] ?_).mpr ?_
  · intro e he
    rcases List.mem_cons.mp he with rfl | he
    · exact List.mem_cons_self
    · rw [List.mem_singleton.mp he]
      exact List.mem_cons_of_mem _ (List.mem_cons_of_mem _ List.mem_cons_self)
  · rintro ⟨gap, _, _, _, _, hunknown, ⟨_, _, _, hevicted⟩, _⟩
    exact hunknown (.inl (Nat.le_trans hevicted (Nat.zero_le _)))

end Instances

end Dcode.ExecServer.SessionState
