import Dcode.Lib.Str

/-!
# Writes to the stdin of a process

`exec_write` of `codex-rs/exec-server/src/local_process.rs` for one process. A call does in one step what it does between two
awaits. The steps of all calls interleave in any order, and a call may be cancelled where it waits.
-/

namespace Dcode.ExecServer

def retainedStdinWriteIdsPerProcess : Nat := 4096

structure AcceptedStdinWriteIds where
  ids : Finset Str := ∅
  order : List Str := []

namespace AcceptedStdinWriteIds

def contains (self : AcceptedStdinWriteIds) (writeId : Str) : Bool := writeId ∈ self.ids

/-- The loop of `remember`. -/
def evict (ids : Finset Str) : List Str → AcceptedStdinWriteIds
  | [] => ⟨ids, []⟩
  | evicted :: order =>
    if (evicted :: order).length > retainedStdinWriteIdsPerProcess then evict (ids.erase evicted) order
    else ⟨ids, evicted :: order⟩

def remember (self : AcceptedStdinWriteIds) (writeId : Str) : AcceptedStdinWriteIds :=
  if writeId ∈ self.ids then self else evict (insert writeId self.ids) (self.order ++ [writeId])

end AcceptedStdinWriteIds

structure WriteParams where
  writeId : Str
  chunk : Bytes

inductive WriteStatus where
  | accepted
  | unknownProcess
  | stdinClosed
  | starting

inductive WriteError where
  | invalidParams (message : Str)
  | internalError (message : Str)

/-- What a call finds: the entry of the process, with whether it takes input, and whether the channel has room. -/
inductive ProcessEntry where
  | unknown
  | starting
  | running (takesInput : Bool)

inductive WritePhase where
  | called
  | running
  | reserving
  | reserved

structure StdinWrites where
  accepted : AcceptedStdinWriteIds := {}
  handed : List WriteParams := []
  calls : List (WriteParams × WritePhase) := []
  answers : List (WriteParams × Except WriteError WriteStatus) := []

namespace StdinWrites

/-- The next step of a call: the phase it waits in then, or its answer. -/
def execWrite (self : StdinWrites) (params : WriteParams) (entry : ProcessEntry) (hasPermit : Bool) :
    WritePhase → StdinWrites × (WritePhase ⊕ Except WriteError WriteStatus)
  | .called =>
    (self,
      if params.writeId.isEmpty then .inr (.error (.invalidParams "writeId must not be empty".toList))
      else match entry with
        | .unknown => .inr (.ok .unknownProcess)
        | .starting => .inr (.ok .starting)
        | .running false => .inr (.ok .stdinClosed)
        | .running true => .inl .running)
  | .running => (self, if self.accepted.contains params.writeId then .inr (.ok .accepted) else .inl .reserving)
  | .reserving =>
    (self,
      if hasPermit then .inl .reserved
      else .inr (.error (.internalError "failed to write to process stdin".toList)))
  | .reserved =>
    if self.accepted.contains params.writeId then (self, .inr (.ok .accepted))
    else
      ({ self with handed := self.handed ++ [params], accepted := self.accepted.remember params.writeId },
        .inr (.ok .accepted))

inductive Step where
  | call (params : WriteParams)
  | resume (call : Nat) (entry : ProcessEntry) (hasPermit : Bool)
  | cancel (call : Nat)

def step (self : StdinWrites) : Step → StdinWrites
  | .call params => { self with calls := self.calls ++ [(params, .called)] }
  | .cancel i => { self with calls := self.calls.eraseIdx i }
  | .resume i entry hasPermit =>
    match self.calls[i]? with
    | none => self
    | some (params, phase) =>
      match self.execWrite params entry hasPermit phase with
      | (next, .inl phase) => { next with calls := self.calls.set i (params, phase) }
      | (next, .inr answer) =>
        { next with calls := self.calls.eraseIdx i, answers := self.answers ++ [(params, answer)] }

def run (steps : List Step) : StdinWrites := steps.foldl step {}

end StdinWrites

end Dcode.ExecServer
