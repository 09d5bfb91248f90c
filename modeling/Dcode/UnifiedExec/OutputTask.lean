import Dcode.ExecServer.LocalProcess
import Dcode.Lib.Execution

/-!
# The output task of a process on an exec server

The task follows the events of a process and appends its output to a buffer. When it misses events, because the replayed
history is cut or the live channel has dropped some, it reads what the server retains of the output behind the last number
that it has seen. The tasks of the server go on at any time in between.
-/

namespace Dcode.UnifiedExec

open ExecServer

structure ProcessState where
  hasExited : Bool := false
  exitCode : Option Int := none
  failureMessage : Option Str := none
  sandboxDenied : Bool := false
deriving DecidableEq

def ProcessState.exited (state : ProcessState) (exitCode : Option Int) : ProcessState :=
  { state with hasExited := true, exitCode }

def ProcessState.failed (state : ProcessState) (message : Str) : ProcessState :=
  { state with hasExited := true, failureMessage := some message }

/-! ## The task -/

/-- What the task does next. -/
inductive Phase where
  | starting
  | receiving
  | reading
  | appending (chunks : List ProcessOutputChunk) (response : ReadResponse)
  | finished
deriving DecidableEq

/-- The variables of `spawn_exec_server_output_task` and what its handles refer to. Of the output buffer only the chunks that
are pushed count here, not which of their bytes it retains. -/
structure OutputTask where
  phase : Phase := .starting
  lastSeq : Nat := 0
  outputBuffer : List Bytes := []
  state : ProcessState := {}
  outputClosed : Bool := false
  cancelled : Bool := false
deriving DecidableEq

/-- What `recv` returns. -/
inductive Received where
  | event (event : ExecProcessEvent)
  | lagged
  | closed
deriving DecidableEq

namespace OutputTask

variable (task : OutputTask)

def pushChunk (chunk : Bytes) : OutputTask :=
  { task with outputBuffer := task.outputBuffer ++ [chunk] }

/-- The output is marked closed, and the loop is left. -/
def finish : OutputTask :=
  { task with phase := .finished, outputClosed := true, cancelled := true }

def fail (message : Str) : OutputTask :=
  { task with state := task.state.failed message }.finish

def missingSandboxDenial : ExecProcessEvent → Bool
  | .exited _ _ none => true
  | _ => false

/-- Events are missing before this one, or it does not tell all. -/
def mustRead (event : ExecProcessEvent) : Bool :=
  event.seq.any (task.lastSeq + 1 < ·) || missingSandboxDenial event

/-- The `match event` at the end of the loop. -/
def handle : ExecProcessEvent → OutputTask
  | .output chunk =>
    if chunk.seq ≤ task.lastSeq then task else { task with lastSeq := chunk.seq }.pushChunk chunk.chunk
  | .exited seq exitCode sandboxDenied =>
    if seq ≤ task.lastSeq then task
    else
      let state := { task.state with sandboxDenied := task.state.sandboxDenied || sandboxDenied.getD false }
      { task with lastSeq := seq, state := state.exited (some exitCode) }
  | .closed seq => if seq ≤ task.lastSeq then task else task.finish
  | .failed message => task.fail message

/-- The body of the loop, up to the read. -/
def receive : Received → OutputTask
  | .closed => task.fail "exec-server process event stream closed".toList
  | .lagged => { task with phase := .reading }
  | .event event => if task.mustRead event then { task with phase := .reading } else task.handle event

/-- The read has returned. -/
def readReturned : Except Str ReadResponse → OutputTask
  | .error message => task.fail message
  | .ok response => { task with phase := .appending (response.chunks.filter (task.lastSeq < ·.seq)) response }

/-- What the state learns from a response. -/
def observe (response : ReadResponse) : ProcessState :=
  if response.sandboxDenied || response.exited then
    let state := { task.state with sandboxDenied := task.state.sandboxDenied || response.sandboxDenied }
    if response.exited then state.exited response.exitCode else state
  else task.state

/-- The body of the loop, after the chunks of the response are appended. -/
def settle (response : ReadResponse) : OutputTask :=
  let task := { task with phase := .receiving, lastSeq := max task.lastSeq (response.nextSeq - 1) }
  match response.failure with
  | some message => task.fail message
  | none =>
    let task := { task with state := task.observe response }
    if response.closed then task.finish else task

/-- One more chunk of a response is appended. -/
def append (response : ReadResponse) : List ProcessOutputChunk → OutputTask
  | chunk :: chunks => { task.pushChunk chunk.chunk with phase := .appending chunks response }
  | [] => task.settle response

end OutputTask

/-! ## The task and the server -/

/-- A process of the server, whether its entry is still kept, and the task with its receiver. -/
structure OutputSystem where
  process : RunningProcess
  kept : Bool
  receiver : ExecProcessEventReceiver
  task : OutputTask
deriving DecidableEq

/-- The steps of the task. -/
inductive TaskStep where
  | subscribe
  | recv
  | lag (skipped : Nat)
  | read
  | append
deriving DecidableEq

/-- The steps of the server and of the task. -/
inductive SystemStep where
  | process (step : ProcessStep)
  | remove
  | task (step : TaskStep)
deriving DecidableEq

/-- The error of `exec_read` when there is no entry. -/
def unknownProcessId (processId : Str) : Str :=
  "exec-server rejected request (-32600): unknown process id ".toList ++ processId

namespace OutputSystem

def start (sandboxed : Bool) : OutputSystem where
  process := RunningProcess.start sandboxed processEventChannelCapacity retainedOutputBytesPerProcess
  kept := true
  receiver := { replay := [], position := 0 }
  task := {}

/-- `process.read`, without a limit. -/
def read (sys : OutputSystem) (processId : Str) : Except Str ReadResponse :=
  if sys.kept then .ok (sys.process.execRead (some sys.task.lastSeq) none) else .error (unknownProcessId processId)

/-- A step of the task, if it can be taken. The task holds a sender of the event channel itself, so the channel does not
close before it. -/
def taskStep (processId : Str) (sys : OutputSystem) (step : TaskStep) : Option OutputSystem :=
  match sys.task.phase, step with
  | .starting, .subscribe =>
    some { sys with receiver := sys.process.events.subscribe, task := { sys.task with phase := .receiving } }
  | .receiving, .recv =>
    (sys.receiver.recv sys.process.events).map fun received =>
      { sys with receiver := received.2, task := sys.task.receive (.event received.1) }
  | .receiving, .lag skipped =>
    (sys.receiver.lag sys.process.events skipped).map fun receiver =>
      { sys with receiver, task := sys.task.receive .lagged }
  | .reading, .read => some { sys with task := sys.task.readReturned (sys.read processId) }
  | .appending chunks response, .append => some { sys with task := sys.task.append response chunks }
  | _, _ => none

def step (classify : SandboxClassifier) (processId : Str) (sys : OutputSystem) : SystemStep → Option OutputSystem
  | .process step => if sys.kept then some { sys with process := sys.process.step classify step } else none
  | .remove => if sys.process.closed then some { sys with kept := false } else none
  | .task step => sys.taskStep processId step

/-- The steps in any order. -/
def Step (classify : SandboxClassifier) (processId : Str) (sys sys' : OutputSystem) : Prop :=
  ∃ step, sys.step classify processId step = some sys'

/-- The task has done something. -/
def TaskActs (processId : Str) (sys sys' : OutputSystem) : Prop :=
  ∃ step, sys.taskStep processId step = some sys'

/-! ## What the task is for -/

/-- All output chunks so far. -/
def outputs (sys : OutputSystem) : List ProcessOutputChunk :=
  sys.process.events.sent.filterMap ExecProcessEvent.chunk?

def Intact (sys : OutputSystem) : Prop := sys.process.output = sys.outputs ∧ sys.kept

instance (sys : OutputSystem) : Decidable sys.Intact := inferInstanceAs (Decidable (_ ∧ _))

/-- The server has all that the task may have to read, as long as the task is at work. -/
def Served (sys : OutputSystem) : Prop := sys.task.outputClosed = false → sys.Intact

instance (sys : OutputSystem) : Decidable sys.Served := inferInstanceAs (Decidable (_ → _))

/-- The buffer has the first chunks, each one once and in the order of their numbers, and all of them when the output is
marked closed. -/
structure LosesNothing (sys : OutputSystem) : Prop where
  ordered : sys.outputs.Pairwise fun chunk later => chunk.seq < later.seq
  appended : sys.task.outputBuffer <+: sys.outputs.map ProcessOutputChunk.chunk
  closed : sys.task.outputClosed →
    sys.process.closed ∧ sys.task.outputBuffer = sys.outputs.map ProcessOutputChunk.chunk

end OutputSystem

end Dcode.UnifiedExec
