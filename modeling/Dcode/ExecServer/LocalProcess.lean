import Dcode.ExecServer.Process

/-!
# A process of the exec server

The tasks that read the output streams of a process and wait for its exit change its entry under one lock. Each change takes
the next number, and only so many of the last output chunks are kept.
-/

namespace Dcode.ExecServer

def retainedOutputBytesPerProcess : Nat := 1024 * 1024

def retainedOutputChunksPerProcess : Nat := 50000

def processEventChannelCapacity : Nat := 256

structure RunningProcess where
  output : List ProcessOutputChunk
  retainedBytes : Nat
  nextSeq : Nat
  exitCode : Option Int
  openStreams : Nat
  closed : Bool
  sandboxed : Bool
  sandboxDenied : Bool
  events : ExecProcessEventLog
deriving DecidableEq

/-- The entry of a process that has just started. -/
def RunningProcess.start (sandboxed : Bool) (eventCapacity byteCapacity : Nat) : RunningProcess where
  output := []
  retainedBytes := 0
  nextSeq := 1
  exitCode := none
  openStreams := 2
  closed := false
  sandboxed
  sandboxDenied := false
  events := ExecProcessEventLog.new eventCapacity byteCapacity

/-- `is_likely_sandbox_denied`, of the exit code and the output that is still kept. -/
abbrev SandboxClassifier := Int → List ProcessOutputChunk → Bool

namespace RunningProcess

variable (process : RunningProcess)

/-- The body of the loop of `stream_output`. -/
def streamOutput (stream : ExecOutputStream) (chunk : Bytes) : RunningProcess :=
  let output : ProcessOutputChunk := { seq := process.nextSeq, stream, chunk }
  let kept := evict (fun retained : ProcessOutputChunk => retained.chunk.length) retainedOutputChunksPerProcess
    retainedOutputBytesPerProcess (process.output ++ [output]) (process.retainedBytes + chunk.length)
  { process with
    output := kept.1
    retainedBytes := kept.2
    nextSeq := process.nextSeq + 1
    events := process.events.publish (.output output) }

/-- `watch_exit`, once the exit code is known. -/
def watchExit (classify : SandboxClassifier) (process : RunningProcess) (exitCode : Int) : RunningProcess :=
  let sandboxDenied := if process.sandboxed then classify exitCode process.output else process.sandboxDenied
  { process with
    nextSeq := process.nextSeq + 1
    exitCode := some exitCode
    sandboxDenied
    events := process.events.publish (.exited process.nextSeq exitCode (some sandboxDenied)) }

def finishOutputStream : RunningProcess :=
  { process with openStreams := process.openStreams - 1 }

def maybeEmitClosed : RunningProcess :=
  if process.closed || process.openStreams != 0 || process.exitCode.isNone then process
  else
    { process with
      closed := true
      nextSeq := process.nextSeq + 1
      events := process.events.publish (.closed process.nextSeq) }

def readChunks (maxBytes : Option Nat) : List ProcessOutputChunk → Nat → Bool → Nat → List ProcessOutputChunk × Nat
  | [], _, _, nextSeq => ([], nextSeq)
  | retained :: rest, totalBytes, isFirst, nextSeq =>
    if !isFirst && maxBytes.any (totalBytes + retained.chunk.length > ·) then ([], nextSeq)
    else
      let totalBytes := totalBytes + retained.chunk.length
      if maxBytes.any (totalBytes ≥ ·) then ([retained], retained.seq + 1)
      else
        let (chunks, nextSeq) := readChunks maxBytes rest totalBytes false (retained.seq + 1)
        (retained :: chunks, nextSeq)

/-- The response of `exec_read`. -/
def execRead (afterSeq maxBytes : Option Nat) : ReadResponse :=
  let afterSeq := afterSeq.getD 0
  let read := readChunks maxBytes (process.output.filter (afterSeq < ·.seq)) 0 true process.nextSeq
  { chunks := read.1
    nextSeq := if maxBytes.isNone then process.nextSeq else read.2
    exited := process.exitCode.isSome
    exitCode := process.exitCode
    closed := process.closed
    failure := none
    sandboxDenied := process.sandboxDenied }

end RunningProcess

/-! ## The tasks of a process -/

/-- What the tasks of a process do under its lock. -/
inductive ProcessStep where
  | output (stream : ExecOutputStream) (chunk : Bytes)
  | finishStream
  | exit (exitCode : Int)
  | maybeClose
deriving DecidableEq

/-- A step. No stream has output after its end, and the exit is seen once. -/
def RunningProcess.step (classify : SandboxClassifier) (process : RunningProcess) : ProcessStep → RunningProcess
  | .output stream chunk => if process.openStreams = 0 then process else process.streamOutput stream chunk
  | .finishStream => process.finishOutputStream
  | .exit exitCode => if process.exitCode.isSome then process else process.watchExit classify exitCode
  | .maybeClose => process.maybeEmitClosed

/-- A process after some steps of its tasks. -/
def RunningProcess.run (classify : SandboxClassifier) (process : RunningProcess) (steps : List ProcessStep) :
    RunningProcess :=
  steps.foldl (RunningProcess.step classify) process

end Dcode.ExecServer
