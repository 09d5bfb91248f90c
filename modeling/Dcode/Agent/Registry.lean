import Mathlib.Data.List.AList
import Dcode.Lib.Str

/-!
# The registry of agents

`AgentRegistry` and `SpawnReservation` of `codex-rs/core/src/agent/registry.rs`, with the paths of agents
(`codex-rs/protocol/src/agent_path.rs`). The counter is an integer, so that taking away from zero shows.
A thread is named by the text of its id.
-/

namespace Dcode.Agent

/-! ## Paths of agents -/

abbrev ThreadId := Str

def validateAgentName (agentName : Str) : Except Str Unit :=
  if agentName = [] then .error "agent_name must not be empty".toList
  else if agentName = "root".toList then .error "agent_name `root` is reserved".toList
  else if agentName = ".".toList ∨ agentName = "..".toList then
    .error ("agent_name `".toList ++ agentName ++ "` is reserved".toList)
  else if '/' ∈ agentName then .error "agent_name must not contain `/`".toList
  else if agentName.all fun ch => ch.isLower || ch.isDigit || ch == '_' then .ok ()
  else .error "agent_name must use only lowercase letters, digits, and underscores".toList

def validateAbsolutePath (path : Str) : Except Str Unit :=
  if path = "/morpheus".toList then .ok ()
  else
    match path with
    | '/' :: stripped =>
      match stripped.splitOn '/' with
      | [] => .error "absolute agent path must not be empty".toList
      | root :: segments =>
        if root ≠ "root".toList then
          .error "absolute agent paths must start with `/root` or be `/morpheus`".toList
        else if stripped.getLast? = some '/' then .error "absolute agent path must not end with `/`".toList
        else segments.forM validateAgentName
    | _ => .error "absolute agent paths must start with `/root` or be `/morpheus`".toList

/-- `AgentPath`: only valid paths are built. -/
structure AgentPath where
  path : Str
  valid : validateAbsolutePath path = .ok ()
deriving DecidableEq

def rootPath : Str := "/root".toList

def AgentPath.root : AgentPath := ⟨rootPath, by decide⟩

def AgentPath.isRoot (self : AgentPath) : Bool := self.path == rootPath

/-! ## The registry -/

structure AgentMetadata where
  agentId : Option ThreadId := none
  agentPath : Option AgentPath := none
  agentNickname : Option Str := none
  agentRole : Option Str := none
deriving DecidableEq

structure ActiveAgents where
  agentTree : AList fun _ : Str => AgentMetadata := ∅
  threadPaths : AList fun _ : ThreadId => Str := ∅
  usedAgentNicknames : Finset Str := ∅
  nicknameResetCount : Nat := 0

structure AgentRegistry where
  activeAgents : ActiveAgents := {}
  totalCount : Int := 0

inductive CodexErr where
  | agentLimitReached (maxThreads : Nat)
  | unsupportedOperation (message : Str)
deriving DecidableEq

structure SpawnReservation where
  active : Bool
  reservedAgentNickname : Option Str := none
  reservedAgentPath : Option AgentPath := none

def formatAgentNickname (name : Str) (nicknameResetCount : Nat) : Str :=
  match nicknameResetCount with
  | 0 => name
  | resetCount =>
    let value := resetCount + 1
    let suffix :=
      if 11 ≤ value % 100 ∧ value % 100 ≤ 13 then "th"
      else
        match value % 10 with
        | 1 => "st"
        | 2 => "nd"
        | 3 => "rd"
        | _ => "th"
    name ++ " the ".toList ++ (toString value).toList ++ suffix.toList

def AgentMetadata.isRootAgent (self : AgentMetadata) : Bool := self.agentPath.any AgentPath.isRoot

/-- An agent of `live_agents`. -/
def AgentMetadata.isLive (self : AgentMetadata) : Bool := self.agentId.isSome && !self.isRootAgent

/-- The key of the agent with a thread in the tree. -/
def AgentMetadata.key (self : AgentMetadata) (threadId : ThreadId) : Str :=
  match self.agentPath with
  | some agentPath => agentPath.path
  | none => "thread:".toList ++ threadId

namespace ActiveAgents

variable (self : ActiveAgents)

/-- The part of `release_spawned_thread` under the lock, with `removed_counted_agent`. -/
def releaseSpawnedThread (threadId : ThreadId) : ActiveAgents × Bool :=
  match self.threadPaths.lookup threadId with
  | none => (self, false)
  | some key =>
    ({ self with threadPaths := self.threadPaths.erase threadId, agentTree := self.agentTree.erase key },
      (self.agentTree.lookup key).any fun metadata => !metadata.isRootAgent)

def registerRootThread (threadId : ThreadId) : ActiveAgents :=
  match self.agentTree.lookup rootPath with
  | none =>
    { self with
      agentTree := self.agentTree.insert rootPath { agentId := some threadId, agentPath := some .root }
      threadPaths := self.threadPaths.insert threadId rootPath }
  | some metadata =>
    match metadata.agentId with
    | some rootThreadId => { self with threadPaths := self.threadPaths.insert rootThreadId rootPath }
    | none => self

def liveAgents : List AgentMetadata :=
  (self.agentTree.entries.map (·.2)).filter AgentMetadata.isLive

/-- The tree after a thread got a key: the entry it had under another one goes. -/
def forgetPrevious (threadId : ThreadId) (key : Str) : AList fun _ : Str => AgentMetadata :=
  match self.threadPaths.lookup threadId with
  | some previousKey => if previousKey ≠ key then self.agentTree.erase previousKey else self.agentTree
  | none => self.agentTree

/-- The paths without the thread that had the key before. -/
def forgetReplaced (threadPaths : AList fun _ : ThreadId => Str) (previous : Option AgentMetadata) (threadId : ThreadId) :
    AList fun _ : ThreadId => Str :=
  match previous.bind (·.agentId) with
  | some previousThreadId => if previousThreadId ≠ threadId then threadPaths.erase previousThreadId else threadPaths
  | none => threadPaths

def registerSpawnedThread (agentMetadata : AgentMetadata) : ActiveAgents :=
  match agentMetadata.agentId with
  | none => self
  | some threadId =>
    let key := agentMetadata.key threadId
    let tree := self.forgetPrevious threadId key
    { self with
      usedAgentNicknames := agentMetadata.agentNickname.elim self.usedAgentNicknames (insert · self.usedAgentNicknames)
      threadPaths := forgetReplaced (self.threadPaths.insert threadId key) (tree.lookup key) threadId
      agentTree := tree.insert key agentMetadata }

/-- `reserve_agent_nickname`; `choose` is the random choice of a name. -/
def reserveAgentNickname (names : List Str) (preferred : Option Str)
    (choose : List Str → Option Str) : Option Str × ActiveAgents :=
  let insertName (self : ActiveAgents) (name : Str) : Option Str × ActiveAgents :=
    (some name, { self with usedAgentNicknames := insert name self.usedAgentNicknames })
  match preferred with
  | some preferred => insertName self preferred
  | none =>
    if names.isEmpty then (none, self)
    else
      let availableNames := (names.map fun name => formatAgentNickname name self.nicknameResetCount).filter fun name =>
        name ∉ self.usedAgentNicknames
      match choose availableNames with
      | some name => insertName self name
      | none =>
        let reset := { self with usedAgentNicknames := ∅, nicknameResetCount := self.nicknameResetCount + 1 }
        match choose names with
        | some name => insertName reset (formatAgentNickname name reset.nicknameResetCount)
        | none => (none, reset)

def reserveAgentPath (agentPath : AgentPath) : Except CodexErr ActiveAgents :=
  match self.agentTree.lookup agentPath.path with
  | some _ =>
    .error (.unsupportedOperation ("agent path `".toList ++ agentPath.path ++ "` already exists".toList))
  | none => .ok { self with agentTree := self.agentTree.insert agentPath.path { agentPath := some agentPath } }

def releaseReservedAgentPath (agentPath : AgentPath) : ActiveAgents :=
  if (self.agentTree.lookup agentPath.path).any fun metadata => metadata.agentId.isNone then
    { self with agentTree := self.agentTree.erase agentPath.path }
  else self

/-- The threads and the keys of the tree name each other. -/
def Inverse : Prop :=
  ∀ threadId key, self.threadPaths.lookup threadId = some key ↔
    ∃ metadata, self.agentTree.lookup key = some metadata ∧ metadata.agentId = some threadId

end ActiveAgents

namespace AgentRegistry

def reserveSpawnSlot (self : AgentRegistry) (maxThreads : Option Nat) : Except CodexErr (SpawnReservation × AgentRegistry) :=
  match maxThreads with
  | some maxThreads =>
    if self.totalCount ≥ maxThreads then .error (.agentLimitReached maxThreads)
    else .ok ({ active := true }, { self with totalCount := self.totalCount + 1 })
  | none => .ok ({ active := true }, { self with totalCount := self.totalCount + 1 })

def releaseSpawnedThread (self : AgentRegistry) (threadId : ThreadId) : AgentRegistry :=
  let released := self.activeAgents.releaseSpawnedThread threadId
  { activeAgents := released.1
    totalCount := if released.2 then self.totalCount - 1 else self.totalCount }

end AgentRegistry

namespace SpawnReservation

def drop (self : SpawnReservation) (state : AgentRegistry) : AgentRegistry :=
  if self.active then
    { activeAgents := self.reservedAgentPath.elim state.activeAgents state.activeAgents.releaseReservedAgentPath
      totalCount := state.totalCount - 1 }
  else state

/-- `commit`; the reservation is dropped at its end. -/
def commit (_self : SpawnReservation) (state : AgentRegistry) (agentMetadata : AgentMetadata) : AgentRegistry :=
  let state := { state with activeAgents := state.activeAgents.registerSpawnedThread agentMetadata }
  drop { active := false } state

def reserveAgentPath (self : SpawnReservation) (state : AgentRegistry) (agentPath : AgentPath) :
    Except CodexErr (SpawnReservation × AgentRegistry) := do
  let activeAgents ← state.activeAgents.reserveAgentPath agentPath
  pure ({ self with reservedAgentPath := some agentPath }, { state with activeAgents := activeAgents })

def reserveAgentNicknameWithPreference (self : SpawnReservation) (state : AgentRegistry) (names : List Str)
    (preferred : Option Str) (choose : List Str → Option Str) : Except CodexErr Str × SpawnReservation × AgentRegistry :=
  let reserved := state.activeAgents.reserveAgentNickname names preferred choose
  match reserved.1 with
  | some agentNickname =>
    (.ok agentNickname, { self with reservedAgentNickname := some agentNickname },
      { state with activeAgents := reserved.2 })
  | none =>
    (.error (.unsupportedOperation "no available agent nicknames".toList), self, { state with activeAgents := reserved.2 })

end SpawnReservation

/-! ## Sequences of calls -/

/-- The registry and the reservations that are neither committed nor dropped yet. -/
structure Slots where
  registry : AgentRegistry := {}
  reservations : List SpawnReservation := []

/-- A call; a reservation is named by its place among the outstanding ones. -/
inductive Call where
  | reserveSpawnSlot (maxThreads : Option Nat)
  | reserveAgentNickname (reservation : Nat) (names : List Str) (preferred : Option Str) (choose : List Str → Option Str)
  | reserveAgentPath (reservation : Nat) (agentPath : AgentPath)
  | commit (reservation : Nat) (agentMetadata : AgentMetadata)
  | drop (reservation : Nat)
  | registerRootThread (threadId : ThreadId)
  | releaseSpawnedThread (threadId : ThreadId)

namespace Slots

/-- The call on an outstanding reservation. -/
def onReservation (self : Slots) (i : Nat) (call : SpawnReservation → Slots) : Slots :=
  match self.reservations[i]? with
  | some reservation => call reservation
  | none => self

def step (self : Slots) : Call → Slots
  | .reserveSpawnSlot maxThreads =>
    match self.registry.reserveSpawnSlot maxThreads with
    | .ok (reservation, registry) => { registry := registry, reservations := self.reservations ++ [reservation] }
    | .error _ => self
  | .reserveAgentNickname i names preferred choose =>
    self.onReservation i fun reservation =>
      let reserved := reservation.reserveAgentNicknameWithPreference self.registry names preferred choose
      { registry := reserved.2.2, reservations := self.reservations.set i reserved.2.1 }
  | .reserveAgentPath i agentPath =>
    self.onReservation i fun reservation =>
      match reservation.reserveAgentPath self.registry agentPath with
      | .ok (reservation, registry) => { registry := registry, reservations := self.reservations.set i reservation }
      | .error _ => self
  | .commit i agentMetadata =>
    self.onReservation i fun reservation =>
      { registry := reservation.commit self.registry agentMetadata, reservations := self.reservations.eraseIdx i }
  | .drop i =>
    self.onReservation i fun reservation =>
      { registry := reservation.drop self.registry, reservations := self.reservations.eraseIdx i }
  | .registerRootThread threadId =>
    { self with registry := { self.registry with activeAgents := self.registry.activeAgents.registerRootThread threadId } }
  | .releaseSpawnedThread threadId => { self with registry := self.registry.releaseSpawnedThread threadId }

def run (calls : List Call) : Slots := calls.foldl step {}

/-! ## The accounts -/

def Exact (self : Slots) : Prop :=
  self.registry.totalCount = self.registry.activeAgents.liveAgents.length + self.reservations.length

/-- All slots are accounted for, and the maps agree. -/
def Accounted (self : Slots) : Prop := self.Exact ∧ self.registry.activeAgents.Inverse

/-- A commit is of a thread that has no slot yet, at a key that no thread has, and not of the root; a thread becomes the
root while it has no other key. -/
def Clean (self : Slots) : Call → Prop
  | .commit i agentMetadata =>
    i < self.reservations.length → ∃ threadId, agentMetadata.agentId = some threadId ∧
      agentMetadata.isRootAgent = false ∧
      (∀ key, self.registry.activeAgents.threadPaths.lookup threadId = some key → key = rootPath) ∧
      ∀ metadata, self.registry.activeAgents.agentTree.lookup (agentMetadata.key threadId) = some metadata →
        metadata.agentId = none
  | .registerRootThread threadId =>
    self.registry.activeAgents.agentTree.lookup rootPath = none →
      self.registry.activeAgents.threadPaths.lookup threadId = none
  | _ => True

end Slots

end Dcode.Agent
