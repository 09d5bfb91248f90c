import Dcode.ExecServer.Proofs.RetainedProofs

/-!
# What the server says of a process is true

Whatever the tasks of a process do in whichever order, its events are a log: numbered without gaps, with at most one exit and
nothing behind the close. A read tells the log up to its time, but for the output that is evicted.
-/

namespace Dcode.ExecServer

open NumberedLog Retained List ExecProcessEvent

/-! ## Eviction -/

section Evict

variable {α : Type} {len : α → Nat} {maxCount maxBytes : Nat}

/-- Eviction drops the oldest entries, and keeps count of the bytes. -/
theorem evict_spec (entries : List α) {bytes : Nat} (hbytes : bytes = (entries.map len).sum) :
    (evict len maxCount maxBytes entries bytes).1 <:+ entries ∧
      (evict len maxCount maxBytes entries bytes).2 = ((evict len maxCount maxBytes entries bytes).1.map len).sum ∧
      (evict len maxCount maxBytes entries bytes).2 ≤ maxBytes := by
  induction entries generalizing bytes with
  | nil => exact ⟨suffix_rfl, hbytes, by rw [evict, hbytes]; exact Nat.zero_le _⟩
  | cons a entries ih =>
    rw [evict]
    split
    · have hrest : bytes - len a = (entries.map len).sum := by
        rw [hbytes, map_cons, sum_cons]
        omega
      obtain ⟨hsuffix, hsum, hle⟩ := ih hrest
      exact ⟨hsuffix.trans (suffix_cons _ _), hsum, hle⟩
    next hfits =>
      refine ⟨suffix_rfl, hbytes, ?_⟩
      rw [Bool.or_eq_true, not_or, decide_eq_true_eq, decide_eq_true_eq] at hfits
      exact Nat.not_lt.mp hfits.2

end Evict

/-! ## Logs that grow -/

structure IsLog (events : List ExecProcessEvent) : Prop where
  numbered : Numbered ExecProcessEvent.seq events
  exit_unique : ∀ e ∈ events, ∀ e' ∈ events, e.isExited → e'.isExited → e = e'
  exit_classified : ∀ seq exitCode sandboxDenied, .exited seq exitCode sandboxDenied ∈ events → sandboxDenied.isSome
  closed_last : ∀ e ∈ events, e.isClosed → e.seq = some events.length

def IsLog.toLog {events : List ExecProcessEvent} (h : IsLog events) : ProcessLog where
  events := events
  numbered := h.numbered
  exit_unique := h.exit_unique
  exit_classified := h.exit_classified
  closed_last := h.closed_last

theorem isLog_nil : IsLog [] where
  numbered := numbered_nil
  exit_unique := fun _ h => by cases h
  exit_classified := fun _ _ _ h => by cases h
  closed_last := fun _ h => by cases h

section Concat

variable {events : List ExecProcessEvent} {event : ExecProcessEvent}

theorem IsLog.concat (h : IsLog events) (hseq : event.seq = some (events.length + 1))
    (hopen : ∀ e ∈ events, e.isClosed = false) (hexit : event.isExited → ∀ e ∈ events, e.isExited = false)
    (hclassified : ∀ seq exitCode sandboxDenied, event = .exited seq exitCode sandboxDenied → sandboxDenied.isSome) :
    IsLog (events ++ [event]) := by
  refine ⟨h.numbered.concat hseq, ?_, ?_, ?_⟩
  · intro e he e' he' hisExit hisExit'
    rcases mem_append.mp he with he | he
    · rcases mem_append.mp he' with he' | he'
      · exact h.exit_unique e he e' he' hisExit hisExit'
      · rw [mem_singleton.mp he'] at hisExit'
        rw [hexit hisExit' e he] at hisExit
        cases hisExit
    · rw [mem_singleton.mp he] at hisExit ⊢
      rcases mem_append.mp he' with he' | he'
      · rw [hexit hisExit e' he'] at hisExit'
        cases hisExit'
      · exact (mem_singleton.mp he').symm
  · intro seq exitCode sandboxDenied hmem
    rcases mem_append.mp hmem with hmem | hmem
    · exact h.exit_classified seq exitCode sandboxDenied hmem
    · exact hclassified seq exitCode sandboxDenied (mem_singleton.mp hmem).symm
  · intro e he hclosed
    rw [length_append]
    rcases mem_append.mp he with he | he
    · rw [hopen e he] at hclosed
      cases hclosed
    · rw [mem_singleton.mp he]
      exact hseq

theorem find?_concat_of_not (h : event.isExited = false) :
    (events ++ [event]).find? isExited = events.find? isExited := by
  rw [find?_append, find?_singleton, h]
  simp

theorem find?_concat_of_exited (h : event.isExited) (hnone : ∀ e ∈ events, e.isExited = false) :
    (events ++ [event]).find? isExited = some event := by
  have hbefore : events.find? isExited = none := by
    rw [find?_eq_none]
    intro e he
    rw [hnone e he]
    exact Bool.false_ne_true
  rw [find?_append, hbefore, find?_singleton, h]
  rfl

end Concat

namespace RunningProcess

/-! ## The invariant of a process -/

structure Sound (process : RunningProcess) : Prop where
  isLog : IsLog process.events.sent
  nextSeq : process.nextSeq = process.events.sent.length + 1
  output : process.output <:+ process.events.sent.filterMap ExecProcessEvent.chunk?
  retainedBytes : process.retainedBytes = (process.output.map fun chunk => chunk.chunk.length).sum
  retainedBytes_le : process.retainedBytes ≤ retainedOutputBytesPerProcess
  exitCode : process.exitCode = (process.events.sent.find? ExecProcessEvent.isExited).bind exitCode?
  sandboxDenied : process.sandboxDenied = (process.events.sent.find? ExecProcessEvent.isExited).any deniedBy
  closed : process.closed = process.events.sent.any ExecProcessEvent.isClosed
  closed_ended : process.closed → process.openStreams = 0 ∧ process.exitCode.isSome

variable {process : RunningProcess}

theorem sound_start (sandboxed : Bool) (eventCapacity byteCapacity : Nat) :
    Sound (start sandboxed eventCapacity byteCapacity) where
  isLog := isLog_nil
  nextSeq := rfl
  output := suffix_rfl
  retainedBytes := rfl
  retainedBytes_le := Nat.zero_le _
  exitCode := rfl
  sandboxDenied := rfl
  closed := rfl
  closed_ended := fun h => by cases h

section

variable (h : Sound process)

include h

theorem Sound.isSome_exitCode : process.exitCode.isSome = process.events.sent.any isExited := by
  rw [h.exitCode, Bool.eq_iff_iff, any_eq_true]
  constructor
  · intro hsome
    obtain ⟨code, hcode⟩ := Option.isSome_iff_exists.mp hsome
    obtain ⟨event, hfound, -⟩ := Option.bind_eq_some_iff.mp hcode
    exact ⟨event, mem_of_find?_eq_some hfound, find?_some hfound⟩
  · rintro ⟨event, hmem, hexit⟩
    obtain ⟨found, hfound⟩ := Option.isSome_iff_exists.mp (find?_isSome.mpr ⟨event, hmem, hexit⟩)
    rw [hfound]
    have hfoundExit := find?_some hfound
    cases found with
    | exited _ code _ => rfl
    | output _ | closed _ | failed _ => cases hfoundExit

theorem Sound.not_exited (hrunning : process.exitCode.isSome = false) :
    ∀ e ∈ process.events.sent, e.isExited = false := by
  intro e he
  rw [h.isSome_exitCode, any_eq_false] at hrunning
  exact Bool.eq_false_iff.mpr (hrunning e he)

theorem Sound.not_closed (hopen : process.closed = false) : ∀ e ∈ process.events.sent, e.isClosed = false := by
  intro e he
  rw [h.closed, any_eq_false] at hopen
  exact Bool.eq_false_iff.mpr (hopen e he)

theorem Sound.streamOutput (hopen : process.openStreams ≠ 0) (stream : ExecOutputStream) (chunk : Bytes) :
    Sound (process.streamOutput stream chunk) := by
  let output : ProcessOutputChunk := { seq := process.nextSeq, stream, chunk }
  have hsent : (process.streamOutput stream chunk).events.sent = process.events.sent ++ [.output output] := rfl
  have hunclosed : process.closed = false := by
    rw [Bool.eq_false_iff]
    exact fun hclosed => hopen (h.closed_ended hclosed).1
  have hbytes : process.retainedBytes + chunk.length =
      ((process.output ++ [output]).map fun retained => retained.chunk.length).sum := by
    rw [h.retainedBytes, map_append, sum_append]
    rfl
  obtain ⟨hsuffix, hsum, hle⟩ :=
    @evict_spec _ _ retainedOutputChunksPerProcess retainedOutputBytesPerProcess _ _ hbytes
  have hfind : (process.streamOutput stream chunk).events.sent.find? isExited =
      process.events.sent.find? isExited := find?_concat_of_not rfl
  refine ⟨?_, ?_, ?_, hsum, hle, ?_, ?_, ?_, h.closed_ended⟩
  · refine h.isLog.concat (congrArg some h.nextSeq) (h.not_closed hunclosed) (fun hexit => by cases hexit) ?_
    intro _ _ _ heq
    cases heq
  · rw [hsent, length_append]
    exact congrArg (· + 1) h.nextSeq
  · rw [hsent, filterMap_append]
    obtain ⟨dropped, hdropped⟩ := h.output
    refine hsuffix.trans ⟨dropped, ?_⟩
    rw [← hdropped, append_assoc]
    rfl
  · rw [hfind]
    exact h.exitCode
  · rw [hfind]
    exact h.sandboxDenied
  · rw [hsent, any_append, ← h.closed]
    exact (Bool.or_false _).symm

theorem Sound.watchExit (classify : SandboxClassifier) (hrunning : process.exitCode.isSome = false) (exitCode : Int) :
    Sound (process.watchExit classify exitCode) := by
  let denied := if process.sandboxed then classify exitCode process.output else process.sandboxDenied
  let exit : ExecProcessEvent := .exited process.nextSeq exitCode (some denied)
  have hsent : (process.watchExit classify exitCode).events.sent = process.events.sent ++ [exit] := rfl
  have hunclosed : process.closed = false := by
    rw [Bool.eq_false_iff]
    intro hclosed
    rw [(h.closed_ended hclosed).2] at hrunning
    cases hrunning
  have hnone := h.not_exited hrunning
  have hfind : (process.watchExit classify exitCode).events.sent.find? isExited = some exit :=
    find?_concat_of_exited rfl hnone
  refine ⟨?_, ?_, ?_, h.retainedBytes, h.retainedBytes_le, ?_, ?_, ?_, ?_⟩
  · refine h.isLog.concat (congrArg some h.nextSeq) (h.not_closed hunclosed) (fun _ => hnone) ?_
    rintro _ _ _ heq
    injection heq with _ _ hdenied
    rw [← hdenied]
    rfl
  · rw [hsent, length_append]
    exact congrArg (· + 1) h.nextSeq
  · have hnone : [exit].filterMap chunk? = [] := rfl
    rw [hsent, filterMap_append, hnone, append_nil]
    exact h.output
  · rw [hfind]
    rfl
  · rw [hfind]
    rfl
  · rw [hsent, any_append, ← h.closed]
    exact (Bool.or_false _).symm
  · intro hclosed
    exact ⟨(h.closed_ended hclosed).1, rfl⟩

theorem Sound.finishOutputStream : Sound process.finishOutputStream where
  isLog := h.isLog
  nextSeq := h.nextSeq
  output := h.output
  retainedBytes := h.retainedBytes
  retainedBytes_le := h.retainedBytes_le
  exitCode := h.exitCode
  sandboxDenied := h.sandboxDenied
  closed := h.closed
  closed_ended := by
    intro hclosed
    obtain ⟨hended, hexit⟩ := h.closed_ended hclosed
    refine ⟨?_, hexit⟩
    change process.openStreams - 1 = 0
    rw [hended]

theorem Sound.maybeEmitClosed : Sound process.maybeEmitClosed := by
  rw [RunningProcess.maybeEmitClosed]
  split
  · exact h
  next hready =>
    rw [Bool.or_eq_true, Bool.or_eq_true, not_or, not_or] at hready
    obtain ⟨⟨hunclosed, hstreams⟩, hexited⟩ := hready
    have hunclosed' : process.closed = false := Bool.eq_false_iff.mpr hunclosed
    have hstreams' : process.openStreams = 0 := by simpa using hstreams
    have hexited' : process.exitCode.isSome := by
      cases hcode : process.exitCode with
      | none =>
        rw [hcode] at hexited
        exact absurd rfl hexited
      | some code => rfl
    have hfind : (process.events.sent ++ [ExecProcessEvent.closed process.nextSeq]).find? isExited =
        process.events.sent.find? isExited := find?_concat_of_not rfl
    refine ⟨?_, ?_, ?_, h.retainedBytes, h.retainedBytes_le, ?_, ?_, ?_, fun _ => ⟨hstreams', hexited'⟩⟩
    · refine h.isLog.concat (congrArg some h.nextSeq) (h.not_closed hunclosed') (fun hexit => by cases hexit) ?_
      intro _ _ _ heq
      cases heq
    · change process.nextSeq + 1 = (process.events.sent ++ [_]).length + 1
      rw [length_append, length_singleton, h.nextSeq]
    · have hnone : [ExecProcessEvent.closed process.nextSeq].filterMap chunk? = [] := rfl
      change process.output <:+ (process.events.sent ++ [ExecProcessEvent.closed process.nextSeq]).filterMap _
      rw [filterMap_append, hnone, append_nil]
      exact h.output
    · change process.exitCode = ((process.events.sent ++ [_]).find? _).bind _
      rw [hfind]
      exact h.exitCode
    · change process.sandboxDenied = ((process.events.sent ++ [_]).find? _).any _
      rw [hfind]
      exact h.sandboxDenied
    · change true = (process.events.sent ++ [_]).any _
      simp [isClosed]

/-- Every step of a task keeps the entry in agreement with the events. -/
theorem Sound.step (classify : SandboxClassifier) (step : ProcessStep) : Sound (process.step classify step) := by
  cases step with
  | output stream chunk =>
    rw [RunningProcess.step]
    split
    · exact h
    next hopen =>
      exact h.streamOutput hopen stream chunk
  | finishStream => exact h.finishOutputStream
  | exit exitCode =>
    rw [RunningProcess.step]
    split
    · exact h
    next hrunning =>
      exact h.watchExit classify (Bool.eq_false_iff.mpr hrunning) exitCode
  | maybeClose => exact h.maybeEmitClosed

theorem Sound.run (classify : SandboxClassifier) (steps : List ProcessStep) : Sound (process.run classify steps) := by
  induction steps generalizing process with
  | nil => exact h
  | cons step steps ih => exact ih (h.step classify step)

end

/-- Whatever the tasks of a process do, its events are a log, and its fields say of the log what they should. -/
theorem run_start_sound (classify : SandboxClassifier) (sandboxed : Bool) (eventCapacity byteCapacity : Nat)
    (steps : List ProcessStep) : Sound ((start sandboxed eventCapacity byteCapacity).run classify steps) :=
  (sound_start sandboxed eventCapacity byteCapacity).run classify steps

theorem sent_prefix_step (classify : SandboxClassifier) (process : RunningProcess) (step : ProcessStep) :
    process.events.sent <+: (process.step classify step).events.sent := by
  cases step with
  | output stream chunk =>
    rw [step]
    split
    · exact prefix_rfl
    · exact prefix_append _ _
  | finishStream => exact prefix_rfl
  | exit exitCode =>
    rw [step]
    split
    · exact prefix_rfl
    · exact prefix_append _ _
  | maybeClose =>
    rw [step, maybeEmitClosed]
    split
    · exact prefix_rfl
    · exact prefix_append _ _

/-! ## Reads -/

theorem readChunks_none (chunks : List ProcessOutputChunk) (totalBytes : Nat) (isFirst : Bool) (nextSeq : Nat) :
    (readChunks none chunks totalBytes isFirst nextSeq).1 = chunks := by
  induction chunks generalizing totalBytes isFirst nextSeq with
  | nil => rfl
  | cons chunk chunks ih =>
    rw [readChunks, Option.any_none, Bool.and_false, if_neg Bool.false_ne_true]
    exact congrArg (chunk :: ·) (ih _ _ _)

/-- A read tells what is retained of the log, if that is the log so far and the kept output. -/
theorem Sound.execRead_eq (h : Sound process) {log : ProcessLog} {retained : Retained log}
    (htake : log.events.take retained.count = process.events.sent)
    (hkept : process.output = (process.events.sent.filterMap chunk?).filter fun chunk =>
      decide (retained.evictedThrough < chunk.seq)) (afterSeq : Nat) :
    process.execRead (some afterSeq) none = retained.response afterSeq := by
  have hexited : process.exitCode.isSome = (process.events.sent.find? isExited).isSome := by
    rw [h.isSome_exitCode, Bool.eq_iff_iff, any_eq_true, find?_isSome]
  have hcount : process.events.sent.length = retained.count := by
    rw [← htake, length_take]
    exact Nat.min_eq_left retained.count_le
  rw [execRead, Retained.response, Retained.chunks, Retained.exit?, htake, readChunks_none, hexited, ← h.exitCode,
    ← h.sandboxDenied, ← h.closed, hkept,
    filter_filter, h.nextSeq, hcount]
  rfl

end RunningProcess

end Dcode.ExecServer
