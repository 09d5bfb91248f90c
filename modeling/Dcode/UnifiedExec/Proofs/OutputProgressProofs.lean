import Dcode.UnifiedExec.Proofs.OutputTaskProofs

/-!
# The output task catches up

An event that was sent is handled after some more steps of the task, however the server goes on: either the task comes to it
event by event, or it meets a gap or a lag and reads past it. So all output reaches the buffer, and the output is marked
closed after the process is.
-/

namespace Dcode.UnifiedExec

open ExecServer List Nat OutputTask

namespace OutputSystem

variable {sys sys' : OutputSystem} {classify : SandboxClassifier} {processId : Str} {n : Nat}

def Handled (n : Nat) (sys : OutputSystem) : Prop :=
  sys.task.phase = .finished ∨ (sys.task.phase = .receiving ∨ sys.task.phase = .reading) ∧ n ≤ sys.task.lastSeq

/-- How many events up to a number are before or at the receiver's next one. -/
def ahead (n : Nat) (sys : OutputSystem) : Nat :=
  n - (sys.process.events.sent.length - (sys.receiver.pending sys.process.events).length)

/-- What the task has to do before it is done with an event: a response that does not reach it is appended, events are
received until it or a gap comes, a response that reaches it is read and appended. -/
def rank (n : Nat) (sys : OutputSystem) : ℕ ×ₗ ℕ :=
  match sys.task.phase with
  | .starting => toLex (5, 0)
  | .appending chunks response => toLex (if n ≤ response.nextSeq - 1 then 1 else 4, chunks.length)
  | .receiving => toLex (3, sys.ahead n)
  | .reading => toLex (2, 0)
  | .finished => toLex (0, 0)

theorem toLex_lt_of_lt {a b c d : Nat} (h : a < b) : toLex (a, c) < toLex (b, d) := Prod.Lex.toLex_lt_toLex.mpr (.inl h)

theorem toLex_lt_of_eq {a b c : Nat} (h : b < c) : toLex (a, b) < toLex (a, c) :=
  Prod.Lex.toLex_lt_toLex.mpr (.inr ⟨rfl, h⟩)

/-! ## Steps of the task -/

/-- Whoever is not done with an event has something to do. -/
theorem Inv.exists_moves (h : sys.Inv) (hn : n ≤ sys.process.events.sent.length) (hhandled : ¬ sys.Handled n) :
    ∃ sys', Moves processId sys sys' := by
  have hcaught := h.caught
  cases hphase : sys.task.phase with
  | starting => exact ⟨_, .subscribe hphase⟩
  | receiving =>
    rw [hphase] at hcaught
    cases hcaught with
    | receiving through isOpen follows awaits =>
      have hpending : sys.receiver.pending sys.process.events ≠ [] := by
        intro hnil
        exact hhandled (.inr ⟨.inl hphase, le_trans hn (awaits hnil)⟩)
      obtain ⟨received, hrecv⟩ := Option.isSome_iff_exists.mp (ExecProcessEventReceiver.recv_isSome hpending)
      exact ⟨_, .recv hphase received.1 received.2 hrecv⟩
  | reading => exact ⟨_, .read hphase⟩
  | appending chunks response => exact ⟨_, .append chunks response hphase⟩
  | finished => exact absurd (.inl hphase) hhandled

theorem phase_handle (task : OutputTask) (event : ExecProcessEvent) :
    (task.handle event).phase = task.phase ∨ (task.handle event).phase = .finished := by
  cases event with
  | output chunk | exited seq exitCode sandboxDenied =>
    rw [handle]
    split <;> exact .inl rfl
  | closed seq =>
    rw [handle]
    split
    · exact .inl rfl
    · exact .inr rfl
  | failed message => exact .inr rfl

/-- An event is received: it is before the gap, or the task reads. -/
theorem Inv.rank_recv (h : sys.Inv) (hhandled : ¬ sys.Handled n) (hphase : sys.task.phase = .receiving)
    {event : ExecProcessEvent} {receiver : ExecProcessEventReceiver}
    (hrecv : sys.receiver.recv sys.process.events = some (event, receiver)) :
    Handled n { sys with receiver, task := sys.task.receive (.event event) } ∨
      rank n { sys with receiver, task := sys.task.receive (.event event) } < rank n sys := by
  have hrank : rank n sys = toLex (3, sys.ahead n) := by
    rw [rank, hphase]
  have hcaught := h.caught
  rw [hphase] at hcaught
  cases hcaught with
  | receiving through isOpen follows awaits =>
    have hlt : sys.task.lastSeq < n := by
      by_contra hle
      exact hhandled (.inr ⟨.inl hphase, not_lt.mp hle⟩)
    have hpending := ExecProcessEventReceiver.pending_of_recv hrecv
    have hsuffix := follows.pending
    rw [hpending] at hsuffix
    have hseq := h.sound.isLog.numbered.seq_of_suffix hsuffix
    have hlength := hsuffix.length_le
    rw [length_cons] at hlength
    rw [receive]
    split
    · right
      rw [hrank]
      exact toLex_lt_of_lt (by decide)
    next hmust =>
      rw [mustRead, hseq, Option.any_some, Bool.or_eq_true, decide_eq_true_eq] at hmust
      rcases phase_handle sys.task event with hsame | hfinished
      · right
        rw [hrank, rank]
        rw [hsame, hphase]
        apply toLex_lt_of_eq
        rw [ahead, ahead, hpending, length_cons]
        dsimp only
        omega
      · exact .inl (.inl hfinished)

theorem Inv.rank_append {chunks : List ProcessOutputChunk} {response : ReadResponse}
    (hphase : sys.task.phase = .appending chunks response) :
    Handled n { sys with task := sys.task.append response chunks } ∨
      rank n { sys with task := sys.task.append response chunks } < rank n sys := by
  have hrank : rank n sys = toLex (if n ≤ response.nextSeq - 1 then 1 else 4, chunks.length) := by
    rw [rank, hphase]
  cases chunks with
  | cons chunk chunks =>
    right
    rw [hrank]
    exact toLex_lt_of_eq (lt_succ_self _)
  | nil =>
    rw [append, settle]
    split
    · exact .inl (.inl rfl)
    · split
      · exact .inl (.inl rfl)
      · by_cases hreached : n ≤ response.nextSeq - 1
        · exact .inl (.inr ⟨.inl rfl, le_trans hreached (le_max_right _ _)⟩)
        · right
          rw [hrank, if_neg hreached]
          exact toLex_lt_of_lt (by decide)

/-- Every step of the task brings it nearer to an event. -/
theorem Inv.rank_moves (h : sys.Inv) (hserved : sys.Served) (hn : n ≤ sys.process.events.sent.length)
    (hhandled : ¬ sys.Handled n) (hmoves : Moves processId sys sys') : sys'.Handled n ∨ rank n sys' < rank n sys := by
  have hkept := (h.intact hserved hmoves.phase_ne).2
  cases hmoves with
  | subscribe hphase =>
    right
    rw [rank, rank, hphase]
    exact toLex_lt_of_lt (by decide)
  | recv hphase event receiver hrecv => exact h.rank_recv hhandled hphase hrecv
  | lag hphase skipped receiver hlag =>
    right
    rw [rank, rank, hphase]
    exact toLex_lt_of_lt (by decide)
  | read hphase =>
    right
    have hnext : n ≤ sys.process.nextSeq - 1 := by
      rw [h.sound.nextSeq]
      exact hn
    have hrank : rank n sys = toLex (2, 0) := by
      rw [rank, hphase]
    rw [hrank, OutputSystem.read, if_pos hkept]
    change toLex (if n ≤ sys.process.nextSeq - 1 then 1 else 4, _) < _
    rw [if_pos hnext]
    exact toLex_lt_of_lt (by decide)
  | append chunks response hphase => exact Inv.rank_append hphase

/-! ## Steps of the server -/

/-- The server does not take the task back. -/
theorem Inv.rank_process (h : sys.Inv) (step : ProcessStep) :
    rank n { sys with process := sys.process.step classify step } = rank n sys := by
  have hcaught := h.caught
  obtain ⟨new, hsent⟩ := RunningProcess.sent_prefix_step classify sys.process step
  rw [rank, rank]
  cases hphase : sys.task.phase with
  | receiving =>
    rw [hphase] at hcaught
    cases hcaught with
    | receiving through isOpen follows awaits =>
      rw [ahead]
      dsimp only
      rw [follows.pending_append hsent.symm, ← hsent, length_append, length_append]
      congr 3
      omega
  | starting | reading | appending chunks response | finished => rfl

theorem Step.sent_prefix (h : Step classify processId sys sys') :
    sys.process.events.sent <+: sys'.process.events.sent := by
  cases h.steps with
  | process step => exact RunningProcess.sent_prefix_step classify sys.process step
  | remove => exact prefix_rfl
  | moves _ hmoves => exact hmoves.process_eq ▸ prefix_rfl

/-! ## All output arrives -/

/-- What was sent up to a number that is handled is in the buffer, and its end is noticed. -/
theorem Inv.appended_of_handled (h : sys.Inv) {sent : List ExecProcessEvent} (hsent : sent <+: sys.process.events.sent)
    (hhandled : sys.Handled sent.length) :
    (sent.filterMap ExecProcessEvent.chunk?).map ProcessOutputChunk.chunk <+: sys.task.outputBuffer ∧
      (sent.any ExecProcessEvent.isClosed → sys.task.outputClosed) := by
  have hcaught := h.caught
  rcases hhandled with hphase | ⟨hphase, hle⟩
  · have hclosed := h.outputClosed.mpr hphase
    rw [(h.losesNothing.closed hclosed).2]
    exact ⟨(hsent.filterMap _).map _, fun _ => hclosed⟩
  · have hthrough : sys.Through sys.task.lastSeq [] ∧ sys.OpenThrough sys.task.lastSeq := by
      rcases hphase with hphase | hphase
      · rw [hphase] at hcaught
        cases hcaught with
        | receiving through isOpen _ _ => exact ⟨through, isOpen⟩
      · rw [hphase] at hcaught
        cases hcaught with
        | reading through isOpen _ => exact ⟨through, isOpen⟩
    obtain ⟨through, isOpen⟩ := hthrough
    have hpart : sent <+: sys.process.events.sent.take sys.task.lastSeq := by
      rw [prefix_take_iff]
      exact ⟨hsent, hle⟩
    have hbuffer := through.buffer
    rw [map_nil, append_nil] at hbuffer
    rw [hbuffer]
    refine ⟨(hpart.filterMap _).map _, fun hclosed => ?_⟩
    -- the end is behind what the task has handled while it is at work
    obtain ⟨event, hevent, hisClosed⟩ := any_eq_true.mp hclosed
    have hmem := hpart.subset hevent
    exact absurd hisClosed (any_eq_false.mp isOpen event hmem)

section Run

variable {sandboxed : Bool} (e : Execution (start sandboxed) (Step classify processId))

theorem exists_handled (hfair : e.Fair (TaskActs processId)) (hserved : ∀ t, (e.state t).Served) {t : Nat}
    (hn : n ≤ (e.state t).process.events.sent.length) : ∃ u, t ≤ u ∧ (e.state u).Handled n := by
  let P (sys : OutputSystem) : Prop := sys.Inv ∧ sys.Served ∧ n ≤ sys.process.events.sent.length
  have hfair' : (e.restrict hserved).Fair (TaskActs processId) := hfair
  have hstart : P ((e.restrict hserved).state t) := ⟨inv_state e fun s _ => hserved s, hserved t, hn⟩
  refine Execution.Fair.eventually (P := P) hfair' (rank n) ?_ ?_ ?_ ?_ hstart
  · rintro sys sys' ⟨hinv, hnow, hle⟩ ⟨hstep, hnext⟩
    exact ⟨hinv.step hnow hstep, hnext, le_trans hle hstep.sent_prefix.length_le⟩
  · rintro sys ⟨hinv, -, hle⟩ hhandled
    obtain ⟨sys', hmoves⟩ := hinv.exists_moves hle hhandled
    exact ⟨sys', taskActs_iff.mpr hmoves⟩
  · rintro sys sys' ⟨hinv, hnow, hle⟩ hhandled ⟨hstep, -⟩
    cases hstep.steps with
    | process step => exact .inr (le_of_eq (hinv.rank_process step))
    | remove => exact .inr (le_refl _)
    | moves _ hmoves => exact (hinv.rank_moves hnow hle hhandled hmoves).imp_right le_of_lt
  · rintro sys sys' ⟨hinv, hnow, hle⟩ hhandled hacts
    exact hinv.rank_moves hnow hle hhandled (taskActs_iff.mp hacts)

theorem sent_prefix_state {t u : Nat} (htu : t ≤ u) :
    (e.state t).process.events.sent <+: (e.state u).process.events.sent := by
  have hkeep : ∀ sys sys', (e.state t).process.events.sent <+: sys.process.events.sent → Step classify processId sys sys' →
      (e.state t).process.events.sent <+: sys'.process.events.sent := by
    intro sys sys' h hstep
    exact h.trans hstep.sent_prefix
  exact e.persists hkeep htu prefix_rfl

end Run

/-- However the steps of the server, of the task and the lag of its channel follow on each other: as long as the server has
evicted no output and keeps the process, the buffer has the chunks one after the other, and all of them when the output is
marked closed. If the task goes on, all that is sent arrives. -/
theorem output_task_loses_nothing {sandboxed : Bool} (classify : SandboxClassifier) (processId : Str)
    (e : Execution (start sandboxed) (Step classify processId)) :
    (∀ t, (∀ s < t, (e.state s).Served) → (e.state t).LosesNothing) ∧
      (e.Fair (TaskActs processId) → (∀ t, (e.state t).Served) → ∀ t, ∃ u, t ≤ u ∧
        (e.state t).outputs.map ProcessOutputChunk.chunk <+: (e.state u).task.outputBuffer ∧
        ((e.state t).process.closed = true → (e.state u).task.outputClosed = true)) := by
  refine ⟨fun t hserved => (inv_state e hserved).losesNothing, ?_⟩
  intro hfair hserved t
  obtain ⟨u, htu, hhandled⟩ := exists_handled e hfair hserved (Nat.le_refl (e.state t).process.events.sent.length)
  have hinv : (e.state u).Inv := inv_state e fun s _ => hserved s
  obtain ⟨happended, hclosed⟩ := hinv.appended_of_handled (sent_prefix_state e htu) hhandled
  have hsound := (inv_state e fun s (_ : s < t) => hserved s).sound
  refine ⟨u, htu, happended, fun hclosed' => hclosed ?_⟩
  rw [← hsound.closed]
  exact hclosed'

/-! ## A task that falls behind -/

/-- The channel drops two events before the task reads. -/
def fallsBehindSteps : List SystemStep :=
  [.task .subscribe, .process (.output .stdout [104]), .process (.exit 0), .process .finishStream, .process .finishStream,
    .process .maybeClose, .task (.lag 2), .task .read, .task .append]

def fallsBehind : Execution (start false) (Step (fun _ _ => false) []) :=
  Execution.ofMoves (fun step sys => (sys.step (fun _ _ => false) [] step).getD sys) (by
    intro step sys
    cases hstep : sys.step (fun _ _ => false) [] step with
    | none => exact .inr rfl
    | some sys' => exact .inl ⟨step, hstep⟩) (start false) (fallsBehindSteps ++ [.task .append])

theorem fallsBehind_fair : fallsBehind.Fair (TaskActs []) := by
  refine Execution.fair_ofMoves rfl ⟨.append, ?_⟩ fun sys' hacts => (taskActs_iff.mp hacts).phase_ne ?_
  all_goals decide +kernel

theorem fallsBehind_served (t : Nat) : (fallsBehind.state t).Served := by
  refine Execution.forall_ofMoves ?_ t
  decide +kernel

theorem output_task_loses_nothing_behind : (fallsBehind.state 10).LosesNothing ∧ ∃ u, 6 ≤ u ∧
      (fallsBehind.state 6).outputs.map ProcessOutputChunk.chunk <+: (fallsBehind.state u).task.outputBuffer ∧
      ((fallsBehind.state 6).process.closed = true → (fallsBehind.state u).task.outputClosed = true) :=
  ⟨(output_task_loses_nothing _ _ fallsBehind).1 10 fun s _ => fallsBehind_served s,
    (output_task_loses_nothing _ _ fallsBehind).2 fallsBehind_fair fallsBehind_served 6⟩

end OutputSystem

end Dcode.UnifiedExec
