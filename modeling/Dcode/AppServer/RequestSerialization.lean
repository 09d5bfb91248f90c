import Dcode.Lib.Execution

/-!
# Serialized requests

The queues of `codex-rs/app-server/src/request_serialization.rs`. A section under a lock is one step: that of `enqueue`,
that of one turn of `drain`, and that of the gate of a connection (`connection_rpc_gate.rs`); so are spawning a drain task
and the first poll of a request. Steps of different tasks interleave in any order.

The queues only compare their keys, which are of any type here. A handler (`future`) is opaque: it starts, runs for any
number of steps of the others and returns; one that panics or is dropped with its runtime is not modelled.
-/

namespace Dcode.AppServer

inductive RequestSerializationAccess where
  | exclusive
  | sharedRead
deriving DecidableEq

/-- `QueuedInitializedRequest`, without its handler; background work has no gate. -/
structure QueuedInitializedRequest (G : Type) where
  gate : Option G
deriving DecidableEq

structure QueuedSerializedRequest (G : Type) where
  access : RequestSerializationAccess
  request : QueuedInitializedRequest G
deriving DecidableEq

variable {K G : Type}

namespace RequestSerializationQueues

/-- What `enqueue` does under the lock: the new entry of its key, and `should_spawn`. -/
def enqueue (entry : Option (List (QueuedSerializedRequest G))) (request : QueuedSerializedRequest G) :
    Option (List (QueuedSerializedRequest G)) × Bool :=
  match entry with
  | some queue => (some (queue ++ [request]), false)
  | none => (some [request], true)

/-- What a turn of `drain` does under the lock: the entry it leaves, and the requests to run; without any it returns. -/
def drain (entry : Option (List (QueuedSerializedRequest G))) :
    Option (List (QueuedSerializedRequest G)) × Option (List (QueuedSerializedRequest G)) :=
  match entry with
  | none => (none, none)
  | some [] => (none, none)
  | some (request :: queue) =>
    if request.access = .sharedRead then
      (some (queue.dropWhile fun request => request.access == .sharedRead),
        some (request :: queue.takeWhile fun request => request.access == .sharedRead))
    else (some queue, some [request])

end RequestSerializationQueues

/-! ## Running requests -/

/-- What happens to a request, named by its place in the order its key's requests were enqueued in. -/
inductive Event where
  | run (index : Nat)
  | start (index : Nat)
  | finish (index : Nat)
deriving DecidableEq

inductive Phase where
  | ready
  | entering
  | running
  | finished
deriving DecidableEq

/-- A request of a batch that a drain task has joined. -/
structure BatchedRequest (G : Type) where
  index : Nat
  request : QueuedSerializedRequest G
  phase : Phase
deriving DecidableEq

/-- The next step of `QueuedInitializedRequest::run` and of the `ConnectionRpcGate::run` in it. -/
def BatchedRequest.advance (accepting : G → Bool) (self : BatchedRequest G) : Phase × List Event :=
  match self.phase with
  | .ready =>
    match self.request.request.gate with
    | none => (.running, [.run self.index, .start self.index])
    | some _ => (.entering, [.run self.index])
  | .entering =>
    -- a gate that is closed drops the handler without polling it
    if self.request.request.gate.all accepting then (.running, [.start self.index])
    else (.finished, [.finish self.index])
  | .running => (.finished, [.finish self.index])
  | .finished => (.finished, [])

/-- A drain task: about to take the lock, or awaiting `join_all`. -/
inductive Drain (G : Type) where
  | locking
  | joining (batch : List (BatchedRequest G))
deriving DecidableEq

/-! ## The system -/

/-- All there is about one key: its entry in the map, the `enqueue` calls that are yet to spawn its drain task and the
drain tasks alive; then its history, which no step reads. -/
structure KeyState (G : Type) where
  queue : Option (List (QueuedSerializedRequest G)) := none
  spawning : Nat := 0
  drains : List (Drain G) := []
  enqueued : List (QueuedSerializedRequest G) := []
  batches : List (List (QueuedSerializedRequest G)) := []
  log : List Event := []
deriving DecidableEq

namespace KeyState

def enqueue (self : KeyState G) (request : QueuedSerializedRequest G) : KeyState G :=
  { self with
    queue := (RequestSerializationQueues.enqueue self.queue request).1
    spawning := self.spawning + (RequestSerializationQueues.enqueue self.queue request).2.toNat
    enqueued := self.enqueued ++ [request] }

/-- The batch as `join_all` gets it. -/
def joined (self : KeyState G) (batch : List (QueuedSerializedRequest G)) : List (BatchedRequest G) :=
  batch.mapIdx fun i request => ⟨self.batches.flatten.length + i, request, .ready⟩

/-- A drain task, between the others, has the lock. -/
def drain (self : KeyState G) (before after : List (Drain G)) : KeyState G :=
  match RequestSerializationQueues.drain self.queue with
  | (queue, none) => { self with queue := queue, drains := before ++ after }
  | (queue, some batch) =>
    { self with
      queue := queue
      drains := before ++ .joining (self.joined batch) :: after
      batches := self.batches ++ [batch] }

end KeyState

/-- A step towards the end of the requests of a key. -/
inductive DrainStep (accepting : G → Bool) : KeyState G → KeyState G → Prop where
  | spawn {k : KeyState G} {n : Nat} (hspawning : k.spawning = n + 1) :
      DrainStep accepting k { k with spawning := n, drains := .locking :: k.drains }
  | lock {k : KeyState G} {before after : List (Drain G)} (hdrains : k.drains = before ++ .locking :: after) :
      DrainStep accepting k (k.drain before after)
  /-- `join_all` polls the requests first in their order; then any of them goes on. -/
  | advance {k : KeyState G} {before after : List (Drain G)} {front back : List (BatchedRequest G)} {r : BatchedRequest G}
      (hdrains : k.drains = before ++ .joining (front ++ r :: back) :: after) (hphase : r.phase ≠ .finished)
      (hfront : r.phase = .ready → ∀ r' ∈ front, r'.phase ≠ .ready) :
      DrainStep accepting k { k with
        drains := before ++ .joining (front ++ { r with phase := (r.advance accepting).1 } :: back) :: after
        log := k.log ++ (r.advance accepting).2 }
  | join {k : KeyState G} {before after : List (Drain G)} {batch : List (BatchedRequest G)}
      (hdrains : k.drains = before ++ .joining batch :: after) (hbatch : ∀ r ∈ batch, r.phase = .finished) :
      DrainStep accepting k { k with drains := before ++ .locking :: after }

structure State (K G : Type) where
  keys : K → KeyState G
  accepting : G → Bool

/-- No request yet, all gates open. -/
def State.init (K G : Type) : State K G where
  keys _ := {}
  accepting _ := true

variable [DecidableEq K] [DecidableEq G]

def DrainsKey (key : K) (s s' : State K G) : Prop :=
  ∃ k, DrainStep s.accepting (s.keys key) k ∧ s' = { s with keys := Function.update s.keys key k }

/-- One step of some `enqueue` call, of some drain task, or of `ConnectionRpcGate::close`. -/
inductive Step : State K G → State K G → Prop where
  | enqueue (s : State K G) (key : K) (request : QueuedSerializedRequest G) :
      Step s { s with keys := Function.update s.keys key ((s.keys key).enqueue request) }
  | drain {s s' : State K G} (key : K) (h : DrainsKey key s s') : Step s s'
  | close (s : State K G) (gate : G) : Step s { s with accepting := Function.update s.accepting gate false }

/-- The system running for ever. -/
abbrev Serving (K G : Type) [DecidableEq K] [DecidableEq G] : Type := Execution (State.init K G) (Step (K := K) (G := G))

/-! ## A readers-writer discipline in the order of arrival -/

def Event.run? : Event → Option Nat
  | .run index => some index
  | _ => none

def Event.start? : Event → Option Nat
  | .start index => some index
  | _ => none

/-- One request, or shared reads only. -/
def IsBatch (batch : List (QueuedSerializedRequest G)) : Prop :=
  (∃ request, batch = [request]) ∨ ∀ request ∈ batch, request.access = .sharedRead

/-- The places `i` and `j` fall into one batch. -/
def SameBatch (batches : List (List (QueuedSerializedRequest G))) (i j : Nat) : Prop :=
  ∃ before batch after, batches = before ++ batch :: after ∧
    (before.flatten.length ≤ i ∧ i < before.flatten.length + batch.length) ∧
    (before.flatten.length ≤ j ∧ j < before.flatten.length + batch.length)

/-- The `run` of the request has begun and has not returned; its handler can only be running in between. -/
def KeyState.Running (k : KeyState G) (i : Nat) : Prop := .run i ∈ k.log ∧ .finish i ∉ k.log

/-- What holds of a key at any time. -/
structure Discipline (accepting : G → Bool) (k : KeyState G) : Prop where
  one_drain : k.drains.length ≤ 1
  present_iff : k.queue.isSome ↔ k.spawning + k.drains.length = 1
  /-- The batches cut what was enqueued, in order; the rest is queued. -/
  enqueued_eq : k.enqueued = k.batches.flatten ++ k.queue.getD []
  isBatch : ∀ batch ∈ k.batches, IsBatch batch
  run_order : ∃ n, k.log.filterMap Event.run? = List.range n ∧ n ≤ k.batches.flatten.length
  run_of_finish : ∀ i, .finish i ∈ k.log → .run i ∈ k.log
  /-- A handler starts at most once, within its request's run, and only a closed gate keeps it from starting. -/
  start_nodup : (k.log.filterMap Event.start?).Nodup
  start_after_run : ∀ i, EventLog.Precedes (.run i) (.start i) k.log
  start_or_closed : ∀ i, .finish i ∈ k.log → .start i ∈ k.log ∨
    ∃ request gate, k.enqueued[i]? = some request ∧ request.request.gate = some gate ∧ accepting gate = false
  run_after_finish : ∀ i j, i < j → ¬ SameBatch k.batches i j → EventLog.Precedes (.finish i) (.run j) k.log
  start_after_finish : ∀ i j, i < j → ¬ SameBatch k.batches i j → EventLog.Precedes (.finish i) (.start j) k.log
  exclusive_alone : ∀ i j request, k.Running i → k.Running j → k.enqueued[i]? = some request →
    request.access = .exclusive → j = i

end Dcode.AppServer
