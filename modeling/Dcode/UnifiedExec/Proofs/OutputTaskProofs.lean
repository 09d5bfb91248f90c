import Dcode.ExecServer.Proofs.ReplayProofs
import Dcode.UnifiedExec.OutputTask

/-!
# The output task loses nothing

The task has handled the events up to some number, and its buffer has their output. Whatever the server does in between, a
step of the task keeps this: an event that is next in the log is handled, an event behind a gap is not, and a read fills the
gap up to the time of the read. When the task waits, nothing that it has not handled is behind its receiver, so it catches up.
-/

namespace Dcode.UnifiedExec

open ExecServer NumberedLog Retained List Option ExecProcessEvent OutputTask Nat ProcessOutputChunk RunningProcess
  ExecProcessEventReceiver

theorem filter_outputs {events : List ExecProcessEvent} (h : Numbered seq events) (n : Nat) :
    (events.filterMap chunk?).filter (fun chunk => decide (n < chunk.seq)) = (events.drop n).filterMap chunk? := by
  have hbefore : ((events.take n).filterMap chunk?).filter (fun chunk => decide (n < chunk.seq)) = [] := by
    rw [filter_eq_nil_iff]
    intro chunk hchunk hlt
    obtain ⟨event, hevent, hsome⟩ := List.mem_filterMap.mp hchunk
    rw [chunk?_eq_some.mp hsome] at hevent
    have hle := (h.mem_take (mem_of_mem_take hevent) rfl).mp hevent
    exact absurd (of_decide_eq_true hlt) (not_lt.mpr hle)
  have hbehind : ((events.drop n).filterMap chunk?).filter (fun chunk => decide (n < chunk.seq)) =
      (events.drop n).filterMap chunk? := by
    rw [filter_eq_self]
    intro chunk hchunk
    obtain ⟨event, hevent, hsome⟩ := List.mem_filterMap.mp hchunk
    rw [chunk?_eq_some.mp hsome] at hevent
    exact decide_eq_true (h.mem_drop hevent rfl)
  conv_lhs => rw [← take_append_drop n events]
  rw [filterMap_append, filter_append, hbefore, hbehind, nil_append]

/-! ## What the task does -/

namespace OutputTask

variable {task : OutputTask}

theorem handle_of_le {event : ExecProcessEvent} {n : Nat} (hseq : event.seq = some n) (hle : n ≤ task.lastSeq) :
    task.handle event = task := by
  cases event with
  | output chunk =>
    obtain rfl : chunk.seq = n := some.inj hseq
    rw [handle, if_pos hle]
  | exited seq exitCode sandboxDenied | closed seq =>
    obtain rfl : seq = n := some.inj hseq
    rw [handle, if_pos hle]
  | failed message => cases hseq

/-- The output is marked closed when the task has finished, and not before. -/
def EndsClosed (task : OutputTask) : Prop := task.outputClosed ↔ task.phase = .finished

theorem EndsClosed.outputClosed (h : task.EndsClosed) (hphase : task.phase ≠ .finished) : task.outputClosed = false :=
  Bool.eq_false_iff.mpr (mt h.mp hphase)

theorem endsClosed_of_open (h : task.outputClosed = false) (hphase : task.phase ≠ .finished) : task.EndsClosed := by
  rw [EndsClosed, h]
  exact iff_of_false Bool.false_ne_true hphase

theorem endsClosed_finish (task : OutputTask) : task.finish.EndsClosed := iff_of_true rfl rfl

section

variable (h : task.outputClosed = false)

include h

theorem endsClosed_handle (hphase : task.phase ≠ .finished) (event : ExecProcessEvent) :
    (task.handle event).EndsClosed := by
  cases event with
  | output chunk | exited seq exitCode sandboxDenied =>
    rw [handle]
    split <;> exact endsClosed_of_open h hphase
  | closed seq =>
    rw [handle]
    split
    · exact endsClosed_of_open h hphase
    · exact endsClosed_finish _
  | failed message => exact endsClosed_finish _

theorem endsClosed_receive (hphase : task.phase ≠ .finished) (event : ExecProcessEvent) :
    (task.receive (.event event)).EndsClosed := by
  rw [receive]
  split
  · exact endsClosed_of_open h Phase.noConfusion
  · exact endsClosed_handle h hphase event

theorem endsClosed_append (response : ReadResponse) (chunks : List ProcessOutputChunk) :
    (task.append response chunks).EndsClosed := by
  cases chunks with
  | cons chunk chunks => exact endsClosed_of_open h Phase.noConfusion
  | nil =>
    rw [append, settle]
    split
    · exact endsClosed_finish _
    · split
      · exact endsClosed_finish _
      · exact endsClosed_of_open h Phase.noConfusion

end

end OutputTask

namespace OutputSystem

variable {sys : OutputSystem}

/-- The events of the process so far. -/
abbrev sent (sys : OutputSystem) : List ExecProcessEvent := sys.process.events.sent

/-! ## How far the task has come -/

/-- With these chunks the buffer has the output of the events up to a number. -/
structure Through (sys : OutputSystem) (through : Nat) (chunks : List ProcessOutputChunk) : Prop where
  le : through ≤ sys.sent.length
  buffer : sys.task.outputBuffer ++ chunks.map ProcessOutputChunk.chunk =
    ((sys.sent.take through).filterMap ExecProcessEvent.chunk?).map ProcessOutputChunk.chunk

def OpenThrough (sys : OutputSystem) (through : Nat) : Prop :=
  (sys.sent.take through).any ExecProcessEvent.isClosed = false

/-- If the receiver has nothing left, nothing was sent behind a number. -/
def Awaits (sys : OutputSystem) (through : Nat) : Prop :=
  sys.receiver.pending sys.process.events = [] → sys.sent.length ≤ through

inductive Caught (sys : OutputSystem) : Phase → Prop where
  | starting (through : sys.Through sys.task.lastSeq []) (lastSeq : sys.task.lastSeq = 0) : Caught sys .starting
  | receiving (through : sys.Through sys.task.lastSeq []) (isOpen : sys.OpenThrough sys.task.lastSeq)
      (follows : sys.receiver.Follows sys.process.events) (awaits : sys.Awaits sys.task.lastSeq) : Caught sys .receiving
  | reading (through : sys.Through sys.task.lastSeq []) (isOpen : sys.OpenThrough sys.task.lastSeq)
      (follows : sys.receiver.Follows sys.process.events) : Caught sys .reading
  | appending (chunks : List ProcessOutputChunk) (response : ReadResponse)
      (through : sys.Through (response.nextSeq - 1) chunks) (lastSeq : sys.task.lastSeq ≤ response.nextSeq - 1)
      (failure : response.failure = none)
      (closed : response.closed = (sys.sent.take (response.nextSeq - 1)).any ExecProcessEvent.isClosed)
      (follows : sys.receiver.Follows sys.process.events) (awaits : sys.Awaits (response.nextSeq - 1)) :
      Caught sys (.appending chunks response)
  | finished (closed : sys.process.closed)
      (buffer : sys.task.outputBuffer = sys.outputs.map ProcessOutputChunk.chunk) : Caught sys .finished

structure Inv (sys : OutputSystem) : Prop where
  sound : sys.process.Sound
  replays : sys.process.Replays
  outputClosed : sys.task.EndsClosed
  caught : sys.Caught sys.task.phase

theorem inv_start (sandboxed : Bool) : (start sandboxed).Inv where
  sound := sound_start _ _ _
  replays := replays_start sandboxed
  outputClosed := endsClosed_of_open rfl Phase.noConfusion
  caught := .starting ⟨zero_le _, rfl⟩ rfl

/-! ## Steps of the server -/

section Grow

variable {process : RunningProcess} {new : List ExecProcessEvent} {kept : Bool}

theorem take_grow (hsent : process.events.sent = sys.sent ++ new) {n : Nat}
    (hle : n ≤ sys.sent.length) : process.events.sent.take n = sys.sent.take n := by
  rw [hsent, take_append_of_le_length hle]

variable {through : Nat}

theorem Through.grow {chunks : List ProcessOutputChunk} (h : sys.Through through chunks)
    (hsent : process.events.sent = sys.sent ++ new) : Through { sys with process, kept } through chunks := by
  refine ⟨?_, ?_⟩
  · change through ≤ process.events.sent.length
    rw [hsent, length_append]
    exact le_trans h.le (le_add_right _ _)
  · rw [take_grow hsent h.le]
    exact h.buffer

theorem OpenThrough.grow (h : sys.OpenThrough through) (hle : through ≤ sys.sent.length)
    (hsent : process.events.sent = sys.sent ++ new) : OpenThrough { sys with process, kept } through := by
  rw [OpenThrough, take_grow hsent hle]
  exact h

theorem Awaits.grow (h : sys.Awaits through) (hfollows : sys.receiver.Follows sys.process.events)
    (hsent : process.events.sent = sys.sent ++ new) : Awaits { sys with process, kept } through := by
  intro hpending
  rw [hfollows.pending_append hsent, append_eq_nil_iff] at hpending
  change process.events.sent.length ≤ through
  rw [hsent, hpending.2, append_nil]
  exact h hpending.1

/-- Nothing comes behind the end of the output. -/
theorem eq_nil_of_closed (hsound : sys.process.Sound) (hsound' : process.Sound) (hclosed : sys.process.closed)
    (hsent : process.events.sent = sys.process.events.sent ++ new) : new = [] := by
  rw [hsound.closed, List.any_eq_true] at hclosed
  obtain ⟨event, hevent, hisClosed⟩ := hclosed
  have hlast := hsound.isLog.closed_last event hevent hisClosed
  have hlast' := hsound'.isLog.closed_last event (hsent ▸ mem_append_left _ hevent) hisClosed
  rw [hlast, hsent, length_append] at hlast'
  have hlength := some.inj hlast'
  exact eq_nil_of_length_eq_zero (by omega)

/-- The task is as far as before when the log goes on, or its entry is removed. -/
theorem Caught.grow {phase : Phase} (h : sys.Caught phase) (hsound : sys.process.Sound) (hsound' : process.Sound)
    (hsent : process.events.sent = sys.sent ++ new) : Caught { sys with process, kept } phase := by
  cases h with
  | starting through lastSeq => exact .starting (through.grow hsent) lastSeq
  | receiving through isOpen follows awaits =>
    exact .receiving (through.grow hsent) (isOpen.grow through.le hsent) (follows.append hsent) (awaits.grow follows hsent)
  | reading through isOpen follows =>
    exact .reading (through.grow hsent) (isOpen.grow through.le hsent) (follows.append hsent)
  | appending chunks response through lastSeq failure closed follows awaits =>
    refine .appending chunks response (through.grow hsent) lastSeq failure ?_ (follows.append hsent)
      (awaits.grow follows hsent)
    rw [closed, take_grow hsent through.le]
  | finished closed buffer =>
    have hnil := eq_nil_of_closed hsound hsound' closed hsent
    rw [hnil, append_nil] at hsent
    refine .finished ?_ ?_
    · rw [hsound'.closed, hsent, ← hsound.closed]
      exact closed
    · rw [outputs, hsent]
      exact buffer

end Grow

theorem Inv.processStep (h : sys.Inv) (classify : SandboxClassifier) (step : ProcessStep) :
    Inv { sys with process := sys.process.step classify step } where
  sound := h.sound.step classify step
  replays := h.replays.step h.sound classify step
  outputClosed := h.outputClosed
  caught := by
    obtain ⟨new, hsent⟩ := sent_prefix_step classify sys.process step
    exact h.caught.grow h.sound (h.sound.step classify step) hsent.symm

/-! ## Steps of the task -/

section Task

variable {receiver : ExecProcessEventReceiver} {task : OutputTask} {event : ExecProcessEvent}

theorem Through.next (h : sys.Through sys.task.lastSeq []) (hsound : sys.process.Sound)
    (hmem : event ∈ sys.sent) (hseq : event.seq = some (sys.task.lastSeq + 1))
    (hlastSeq : task.lastSeq = sys.task.lastSeq + 1)
    (hbuffer : task.outputBuffer = sys.task.outputBuffer ++ event.chunk?.toList.map chunk) :
    Through { sys with receiver, task } task.lastSeq [] := by
  have hnumbered := hsound.isLog.numbered
  rw [hlastSeq]
  refine ⟨hnumbered.le_length hmem hseq, ?_⟩
  have hold := h.buffer
  rw [map_nil, append_nil] at hold
  have hchunk : [event].filterMap chunk? = event.chunk?.toList := by
    rw [filterMap_cons]
    cases event.chunk? <;> rfl
  change task.outputBuffer ++ [] = _
  rw [hnumbered.take_succ hmem hseq, filterMap_append, map_append, ← hold, hchunk, hbuffer, append_nil]

theorem OpenThrough.next (h : sys.OpenThrough sys.task.lastSeq) (hsound : sys.process.Sound)
    (hmem : event ∈ sys.sent) (hseq : event.seq = some (sys.task.lastSeq + 1))
    (hlastSeq : task.lastSeq = sys.task.lastSeq + 1) (hopen : event.isClosed = false) :
    OpenThrough { sys with receiver, task } task.lastSeq := by
  rw [hlastSeq, OpenThrough, hsound.isLog.numbered.take_succ hmem hseq, any_append, h]
  simp [hopen]

/-- Behind the last event before the end there is no output. -/
theorem outputs_of_closed (hsound : sys.process.Sound) {seq through : Nat} (hmem : .closed seq ∈ sys.process.events.sent)
    (hle : seq ≤ through + 1) :
    (sys.process.events.sent.take through).filterMap chunk? = sys.outputs := by
  have hnumbered := hsound.isLog.numbered
  have hlast : seq = sys.process.events.sent.length := some.inj (hsound.isLog.closed_last _ hmem rfl)
  have hnone : (sys.process.events.sent.drop through).filterMap chunk? = [] := by
    rw [filterMap_eq_nil_iff]
    intro event hevent
    have hsent := mem_of_mem_drop hevent
    obtain ⟨n, hn⟩ := hnumbered.exists_seq hsent
    have hlt := hnumbered.mem_drop hevent hn
    have hn_le := hnumbered.le_length hsent hn
    obtain rfl : n = seq := by omega
    rw [hnumbered.eq_of_seq hsent hmem hn rfl]
    rfl
  rw [outputs]
  conv_rhs => rw [← take_append_drop through sys.process.events.sent]
  rw [filterMap_append, hnone, append_nil]

theorem closed_of_mem (hsound : sys.process.Sound) {seq : Nat} (hmem : .closed seq ∈ sys.sent) :
    sys.process.closed := by
  rw [hsound.closed, List.any_eq_true]
  exact ⟨_, hmem, rfl⟩

theorem Caught.handle_next (through : sys.Through sys.task.lastSeq []) (isOpen : sys.OpenThrough sys.task.lastSeq)
    (hphase : sys.task.phase = .receiving) (hsound : sys.process.Sound) (hmem : event ∈ sys.sent)
    (hseq : event.seq = some (sys.task.lastSeq + 1)) (follows : receiver.Follows sys.process.events)
    (awaits : receiver.pending sys.process.events = [] → sys.sent.length ≤ sys.task.lastSeq + 1) :
    Caught { sys with receiver, task := sys.task.handle event } (sys.task.handle event).phase := by
  have hnew : ¬ sys.task.lastSeq + 1 ≤ sys.task.lastSeq := not_succ_le_self _
  cases event with
  | output chunk =>
    have hchunk : chunk.seq = sys.task.lastSeq + 1 := some.inj hseq
    rw [handle, hchunk, if_neg hnew]
    rw [hphase]
    exact .receiving (through.next hsound hmem hseq rfl rfl) (isOpen.next hsound hmem hseq rfl rfl) follows awaits
  | exited seq exitCode sandboxDenied =>
    have hexit : seq = sys.task.lastSeq + 1 := some.inj hseq
    rw [handle, hexit, if_neg hnew]
    rw [hphase]
    exact .receiving (through.next hsound hmem hseq rfl (append_nil _).symm)
      (isOpen.next hsound hmem hseq rfl rfl) follows awaits
  | closed seq =>
    have hclosed : seq = sys.task.lastSeq + 1 := some.inj hseq
    have hbuffer := through.buffer
    rw [outputs_of_closed hsound hmem (le_of_eq hclosed), map_nil, append_nil] at hbuffer
    rw [handle, hclosed, if_neg hnew]
    exact .finished (closed_of_mem hsound hmem) hbuffer
  | failed message => cases hseq

theorem Caught.receive (h : sys.Caught .receiving) (hphase : sys.task.phase = .receiving) (hsound : sys.process.Sound)
    (hrecv : sys.receiver.recv sys.process.events = some (event, receiver)) :
    Caught { sys with receiver, task := sys.task.receive (.event event) } (sys.task.receive (.event event)).phase := by
  cases h with
  | receiving through isOpen follows awaits =>
    have hfollows := follows.recv hrecv
    have hsuffix : event :: receiver.pending sys.process.events <:+ sys.sent := by
      rw [← pending_of_recv hrecv]
      exact follows.pending
    have hmem := hsuffix.mem mem_cons_self
    have hseq := hsound.isLog.numbered.seq_of_suffix hsuffix
    -- what was received is the last event if nothing is left
    have hawaits : ∀ n, sys.sent.length - (receiver.pending sys.process.events).length ≤ n →
        receiver.pending sys.process.events = [] → sys.sent.length ≤ n := by
      intro n hn hnil
      rw [hnil] at hn
      exact hn
    rw [OutputTask.receive]
    split
    · exact .reading ⟨through.le, through.buffer⟩ isOpen hfollows
    next hmust =>
      rw [mustRead, hseq, any_some, Bool.or_eq_true, not_or, decide_eq_true_eq, not_lt] at hmust
      rcases lt_or_eq_of_le hmust.1 with hlt | heq
      · have hle := le_of_lt_succ hlt
        rw [handle_of_le hseq hle, hphase]
        exact .receiving ⟨through.le, through.buffer⟩ isOpen hfollows (hawaits _ hle)
      · rw [heq] at hseq
        exact Caught.handle_next through isOpen hphase hsound hmem hseq hfollows (hawaits _ (le_of_eq heq))

/-- A read fills the gap up to its time. -/
theorem Caught.read (h : sys.Caught .reading) (hsound : sys.process.Sound)
    (hunevicted : sys.process.output = sys.outputs) :
    Caught { sys with task := sys.task.readReturned (.ok (sys.process.execRead (some sys.task.lastSeq) none)) }
      (sys.task.readReturned (.ok (sys.process.execRead (some sys.task.lastSeq) none))).phase := by
  cases h with
  | reading through isOpen follows =>
    have hnumbered := hsound.isLog.numbered
    have hnext : sys.process.nextSeq - 1 = sys.sent.length := by
      rw [hsound.nextSeq, Nat.add_sub_cancel]
    have hchunks : ((sys.process.execRead (some sys.task.lastSeq) none).chunks.filter
        fun chunk => decide (sys.task.lastSeq < chunk.seq)) =
        (sys.sent.drop sys.task.lastSeq).filterMap chunk? := by
      rw [execRead, getD_some, readChunks_none, hunevicted, List.filter_filter]
      simp only [Bool.and_self]
      exact filter_outputs hnumbered _
    refine .appending _ _ ⟨?_, ?_⟩ ?_ rfl ?_ follows ?_
    · exact Nat.le_of_eq hnext
    · have hbuffer := through.buffer
      rw [map_nil, append_nil] at hbuffer
      change sys.task.outputBuffer ++ _ = ((sys.sent.take (sys.process.nextSeq - 1)).filterMap _).map _
      rw [hchunks, hbuffer, ← map_append, ← filterMap_append, take_append_drop, hnext, take_length]
    · exact Nat.le_trans through.le (Nat.le_of_eq hnext.symm)
    · change sys.process.closed = (sys.sent.take (sys.process.nextSeq - 1)).any _
      rw [hnext, take_length]
      exact hsound.closed
    · intro _
      exact Nat.le_of_eq hnext.symm

theorem Caught.append {chunks : List ProcessOutputChunk} {response : ReadResponse}
    (h : sys.Caught (.appending chunks response)) (hsound : sys.process.Sound) :
    Caught { sys with task := sys.task.append response chunks } (sys.task.append response chunks).phase := by
  cases h with
  | appending _ _ through lastSeq failure closed follows awaits =>
    cases chunks with
    | cons chunk chunks =>
      refine .appending chunks response ⟨through.le, ?_⟩ lastSeq failure closed follows awaits
      rw [← through.buffer]
      exact append_assoc _ _ _
    | nil =>
      have hmax : max sys.task.lastSeq (response.nextSeq - 1) = response.nextSeq - 1 := max_eq_right lastSeq
      rw [OutputTask.append, settle, failure]
      dsimp only
      split
      next hclosed =>
        rw [hclosed, eq_comm, List.any_eq_true] at closed
        obtain ⟨event, hevent, hisClosed⟩ := closed
        cases event with
        | closed seq =>
          have hmem := mem_of_mem_take hevent
          have hle := (hsound.isLog.numbered.mem_take hmem rfl).mp hevent
          have hbuffer := through.buffer
          rw [outputs_of_closed hsound hmem (le_succ_of_le hle), map_nil, append_nil] at hbuffer
          exact .finished (closed_of_mem hsound hmem) hbuffer
        | output _ | exited _ _ _ | failed _ => cases hisClosed
      next hopen =>
        rw [hmax]
        refine .receiving ⟨through.le, through.buffer⟩ ?_ follows awaits
        exact closed.symm.trans (Bool.eq_false_iff.mpr hopen)

end Task

inductive Moves (processId : Str) (sys : OutputSystem) : OutputSystem → Prop where
  | subscribe (phase : sys.task.phase = .starting) :
      Moves processId sys
        { sys with receiver := sys.process.events.subscribe, task := { sys.task with phase := .receiving } }
  | recv (phase : sys.task.phase = .receiving) (event : ExecProcessEvent) (receiver : ExecProcessEventReceiver)
      (recv : sys.receiver.recv sys.process.events = some (event, receiver)) :
      Moves processId sys { sys with receiver, task := sys.task.receive (.event event) }
  | lag (phase : sys.task.phase = .receiving) (skipped : Nat) (receiver : ExecProcessEventReceiver)
      (lag : sys.receiver.lag sys.process.events skipped = some receiver) :
      Moves processId sys { sys with receiver, task := sys.task.receive .lagged }
  | read (phase : sys.task.phase = .reading) :
      Moves processId sys { sys with task := sys.task.readReturned (sys.read processId) }
  | append (chunks : List ProcessOutputChunk) (response : ReadResponse)
      (phase : sys.task.phase = .appending chunks response) :
      Moves processId sys { sys with task := sys.task.append response chunks }

variable {processId : Str} {sys' : OutputSystem}

theorem taskActs_iff : TaskActs processId sys sys' ↔ Moves processId sys sys' := by
  constructor
  · rintro ⟨step, h⟩
    unfold taskStep at h
    split at h
    next hphase =>
      obtain rfl := some.inj h
      exact .subscribe hphase
    next hphase =>
      obtain ⟨received, hrecv, rfl⟩ := Option.map_eq_some_iff.mp h
      exact .recv hphase received.1 received.2 hrecv
    next skipped hphase =>
      obtain ⟨receiver, hlag, rfl⟩ := Option.map_eq_some_iff.mp h
      exact .lag hphase skipped receiver hlag
    next hphase =>
      obtain rfl := some.inj h
      exact .read hphase
    next chunks response hphase =>
      obtain rfl := some.inj h
      exact .append chunks response hphase
    · cases h
  · intro h
    cases h with
    | subscribe hphase => exact ⟨.subscribe, by simp only [taskStep, hphase]⟩
    | recv hphase event receiver hrecv => exact ⟨.recv, by simp only [taskStep, hphase, hrecv, map_some]⟩
    | lag hphase skipped receiver hlag => exact ⟨.lag skipped, by simp only [taskStep, hphase, hlag, map_some]⟩
    | read hphase => exact ⟨.read, by simp only [taskStep, hphase]⟩
    | append chunks response hphase => exact ⟨.append, by simp only [taskStep, hphase]⟩

theorem Moves.phase_ne (h : Moves processId sys sys') : sys.task.phase ≠ .finished := by
  cases h with
  | subscribe hphase | recv hphase _ _ _ | lag hphase _ _ _ | read hphase
  | append _ _ hphase => exact hphase ▸ Phase.noConfusion

theorem Moves.process_eq (h : Moves processId sys sys') : sys'.process = sys.process := by
  cases h <;> rfl

theorem Moves.endsClosed (h : sys.task.EndsClosed) (hmoves : Moves processId sys sys') : sys'.task.EndsClosed := by
  have hphase := hmoves.phase_ne
  have hopen := h.outputClosed hphase
  cases hmoves with
  | subscribe _ => exact endsClosed_of_open hopen Phase.noConfusion
  | recv _ event _ _ => exact endsClosed_receive hopen hphase event
  | lag _ _ _ _ => exact endsClosed_of_open hopen Phase.noConfusion
  | read _ =>
    cases hread : sys.read processId with
    | error message => exact endsClosed_finish _
    | ok response => exact endsClosed_of_open hopen Phase.noConfusion
  | append chunks response _ => exact endsClosed_append hopen response chunks

/-! ## Every step keeps the invariant -/

variable {classify : SandboxClassifier}

theorem Inv.intact (h : sys.Inv) (hserved : sys.Served) (hphase : sys.task.phase ≠ .finished) : sys.Intact :=
  hserved (h.outputClosed.outputClosed hphase)

theorem Inv.caught_moves (h : sys.Inv) (hserved : sys.Served) (hmoves : Moves processId sys sys') :
    sys'.Caught sys'.task.phase := by
  have hcaught := h.caught
  obtain ⟨hunevicted, hkept⟩ := h.intact hserved hmoves.phase_ne
  cases hmoves with
  | subscribe hphase =>
    rw [hphase] at hcaught
    cases hcaught with
    | starting through lastSeq =>
      refine .receiving ⟨through.le, through.buffer⟩ ?_ (follows_subscribe h.replays.history) ?_
      · rw [lastSeq]
        rfl
      · intro hnil
        rw [pending_subscribe] at hnil
        change sys.process.events.sent.length ≤ _
        rw [h.replays.replay hunevicted hnil]
        exact zero_le _
  | recv hphase event receiver hrecv =>
    rw [hphase] at hcaught
    exact hcaught.receive hphase h.sound hrecv
  | lag hphase skipped receiver hlag =>
    rw [hphase] at hcaught
    cases hcaught with
    | receiving through isOpen _ _ =>
      exact .reading ⟨through.le, through.buffer⟩ isOpen (Follows.lag hlag)
  | read hphase =>
    rw [hphase] at hcaught
    rw [OutputSystem.read, if_pos hkept]
    exact hcaught.read h.sound hunevicted
  | append chunks response hphase =>
    rw [hphase] at hcaught
    exact hcaught.append h.sound

theorem Inv.moves (h : sys.Inv) (hserved : sys.Served) (hmoves : Moves processId sys sys') : sys'.Inv := by
  have hprocess := hmoves.process_eq
  exact ⟨hprocess ▸ h.sound, hprocess ▸ h.replays, hmoves.endsClosed h.outputClosed, h.caught_moves hserved hmoves⟩

/-- What a step does: something happens to the process, its entry is removed, or the task moves. -/
inductive Steps (classify : SandboxClassifier) (processId : Str) (sys : OutputSystem) : OutputSystem → Prop where
  | process (step : ProcessStep) : Steps classify processId sys { sys with process := sys.process.step classify step }
  | remove : Steps classify processId sys { sys with kept := false }
  | moves (sys' : OutputSystem) (moves : Moves processId sys sys') : Steps classify processId sys sys'

theorem Step.steps (h : Step classify processId sys sys') : Steps classify processId sys sys' := by
  obtain ⟨step, hstep⟩ := h
  cases step with
  | process step =>
    rw [OutputSystem.step] at hstep
    split at hstep
    · obtain rfl := some.inj hstep
      exact .process step
    · cases hstep
  | remove =>
    rw [OutputSystem.step] at hstep
    split at hstep
    · obtain rfl := some.inj hstep
      exact .remove
    · cases hstep
  | task step => exact .moves _ (taskActs_iff.mp ⟨step, hstep⟩)

theorem Inv.step (h : sys.Inv) (hserved : sys.Served) (hstep : Step classify processId sys sys') : sys'.Inv := by
  cases hstep.steps with
  | process step => exact h.processStep classify step
  | remove => exact ⟨h.sound, h.replays, h.outputClosed, h.caught.grow h.sound h.sound (append_nil _).symm⟩
  | moves _ hmoves => exact h.moves hserved hmoves

/-- What is in the buffer up to some number is a first part of all output. -/
theorem Through.appended {through : Nat} {chunks : List ProcessOutputChunk} (h : sys.Through through chunks) :
    sys.task.outputBuffer <+: sys.outputs.map chunk := by
  have htake := take_prefix through sys.sent
  have houtputs : (sys.sent.take through).filterMap chunk? <+: sys.outputs := htake.filterMap _
  exact IsPrefix.trans ⟨_, h.buffer⟩ (houtputs.map _)

theorem Caught.appended {phase : Phase} (h : sys.Caught phase) : sys.task.outputBuffer <+: sys.outputs.map chunk := by
  cases h with
  | starting through _ | receiving through _ _ _ | reading through _ _
  | appending _ _ through _ _ _ _ _ => exact through.appended
  | finished _ buffer => exact buffer ▸ prefix_rfl

/-- In every state that the invariant allows nothing is lost. -/
theorem Inv.losesNothing (h : sys.Inv) : sys.LosesNothing where
  ordered := pairwise_outputs h.sound.isLog.numbered
  appended := h.caught.appended
  closed := by
    intro hclosed
    have hcaught := h.caught
    rw [h.outputClosed.mp hclosed] at hcaught
    cases hcaught with
    | finished closed buffer => exact ⟨closed, buffer⟩

/-- The invariant holds as long as the server has what the task needs. -/
theorem inv_state {sandboxed : Bool} (e : Execution (start sandboxed) (Step classify processId)) {t : Nat}
    (hserved : ∀ s < t, (e.state s).Served) : (e.state t).Inv := by
  induction t with
  | zero =>
    rw [e.start]
    exact inv_start sandboxed
  | succ t ih =>
    have hinv := ih fun s hs => hserved s (lt_succ_of_lt hs)
    rcases e.step t with hstep | hstep
    · exact hinv.step (hserved t (lt_succ_self t)) hstep
    · rw [hstep]
      exact hinv

end OutputSystem

end Dcode.UnifiedExec
