import Dcode.Agent.Registry

/-!
# The limit on running agents

`codex-rs/core/src/agent/control/execution.rs` for V2 sub-agents, which alone are limited: an operation that starts a turn
checks whether there is room, and the turn takes a guard on its way (`start_task` of `tasks/mod.rs`), which it drops at its
end. These are steps of different tasks, which interleave in any order.
-/

namespace Dcode.Agent

structure AgentExecutionLimiter where
  active : Nat := 0
  maxThreads? : Option Nat

namespace AgentExecutionLimiter

variable (self : AgentExecutionLimiter)

def maxThreads : Nat := self.maxThreads?.getD (2 ^ 64 - 1)

def hasCapacity : Bool := self.active < self.maxThreads

def ensureExecutionCapacity : Except CodexErr Unit :=
  if self.hasCapacity then .ok () else .error (.agentLimitReached self.maxThreads)

end AgentExecutionLimiter

/-- What was let through and has not reached its thread, the threads with an active turn, and those whose turn holds a
guard. -/
structure Executions where
  limiter : AgentExecutionLimiter
  waiting : List ThreadId := []
  turns : Finset ThreadId := ∅
  guards : Finset ThreadId := ∅

namespace Executions

variable (self : Executions)

def ensureExecutionCapacityForTurnStart (thread : ThreadId) (startsTurn : Bool) : Except CodexErr Unit :=
  if !startsTurn then .ok ()
  else if thread ∈ self.turns then .ok ()
  else self.limiter.ensureExecutionCapacity

inductive Step where
  | send (thread : ThreadId) (startsTurn : Bool)
  | spawn (thread : ThreadId)
  | deliver (i : Nat)
  | takeGuard (thread : ThreadId)
  | endTurn (thread : ThreadId)

/-- An active turn takes in what reaches its thread. -/
def step : Step → Executions
  | .send thread startsTurn =>
    match self.ensureExecutionCapacityForTurnStart thread startsTurn with
    | .ok () => if startsTurn then { self with waiting := self.waiting ++ [thread] } else self
    | .error _ => self
  | .spawn thread =>
    match self.limiter.ensureExecutionCapacity with
    | .ok () => { self with waiting := self.waiting ++ [thread] }
    | .error _ => self
  | .deliver i =>
    match self.waiting[i]? with
    | none => self
    | some thread => { self with waiting := self.waiting.eraseIdx i, turns := insert thread self.turns }
  | .takeGuard thread =>
    if thread ∈ self.turns ∧ thread ∉ self.guards then
      { self with
        limiter := { self.limiter with active := self.limiter.active + 1 }
        guards := insert thread self.guards }
    else self
  | .endTurn thread =>
    { self with
      limiter := { self.limiter with active := self.limiter.active - if thread ∈ self.guards then 1 else 0 }
      turns := self.turns.erase thread
      guards := self.guards.erase thread }

def run (steps : List Step) : Executions := steps.foldl step self

end Executions

end Dcode.Agent
