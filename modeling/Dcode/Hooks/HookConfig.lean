import Dcode.Lib.Json

/-!
# Configured hooks and their fingerprints

A hook is a command that runs at an event. It is trusted by a fingerprint: the SHA-256 of its event, matcher and handler,
after defaults are filled in, written as canonical JSON.
-/

namespace Dcode.Hooks

inductive HookEventName where
  | preToolUse
  | permissionRequest
  | postToolUse
  | preCompact
  | postCompact
  | sessionStart
  | sessionEnd
  | userPromptSubmit
  | subagentStart
  | subagentStop
  | stop
deriving DecidableEq

namespace HookEventName

def keyLabel : HookEventName → Str
  | preToolUse => "pre_tool_use".toList
  | permissionRequest => "permission_request".toList
  | postToolUse => "post_tool_use".toList
  | preCompact => "pre_compact".toList
  | postCompact => "post_compact".toList
  | sessionStart => "session_start".toList
  | sessionEnd => "session_end".toList
  | userPromptSubmit => "user_prompt_submit".toList
  | subagentStart => "subagent_start".toList
  | subagentStop => "subagent_stop".toList
  | stop => "stop".toList

/-- The name as `Debug` writes it. -/
def debugName : HookEventName → Str
  | preToolUse => "PreToolUse".toList
  | permissionRequest => "PermissionRequest".toList
  | postToolUse => "PostToolUse".toList
  | preCompact => "PreCompact".toList
  | postCompact => "PostCompact".toList
  | sessionStart => "SessionStart".toList
  | sessionEnd => "SessionEnd".toList
  | userPromptSubmit => "UserPromptSubmit".toList
  | subagentStart => "SubagentStart".toList
  | subagentStop => "SubagentStop".toList
  | stop => "Stop".toList

def matcherPattern (event : HookEventName) (matcher : Option Str) : Option Str :=
  match event with
  | userPromptSubmit | stop => none
  | _ => matcher

/-- The events whose hooks can add to the context. -/
def emitsAdditionalContext : HookEventName → Bool
  | preToolUse | postToolUse | sessionStart | userPromptSubmit | subagentStart => true
  | _ => false

end HookEventName

inductive HookHandlerConfig where
  | command (command : Str) (commandWindows : Option Str) (timeoutSec : Option Nat) (isAsync : Bool)
      (statusMessage : Option Str) (additionalContextLimit : Option Nat)
  | prompt
  | agent
deriving DecidableEq

structure MatcherGroup where
  matcher : Option Str
  hooks : List HookHandlerConfig
deriving DecidableEq

/-- `HookEventsToml`: the groups of each event. -/
abbrev HookEventsToml := HookEventName → List MatcherGroup

/-- The events in the order of `into_matcher_groups`. -/
def HookEventsToml.order : List HookEventName :=
  [.preToolUse, .permissionRequest, .postToolUse, .preCompact, .postCompact, .sessionStart, .sessionEnd, .userPromptSubmit,
    .subagentStart, .subagentStop, .stop]

def HookEventsToml.isEmpty (events : HookEventsToml) : Bool := HookEventsToml.order.all fun event => (events event).isEmpty

structure HookStateToml where
  enabled : Option Bool := none
  trustedHash : Option Str := none
deriving DecidableEq

/-! ## Fingerprints -/

section Canonical

variable {N : Type}

mutual

def canonicalJson : Value N → Value N
  | .array elems => .array (canonicalElems elems)
  | .object fields => .object (canonicalFields fields)
  | .null => .null
  | .bool b => .bool b
  | .number n => .number n
  | .string s => .string s

def canonicalElems : List (Value N) → List (Value N)
  | [] => []
  | v :: elems => canonicalJson v :: canonicalElems elems

def canonicalFields : List (Str × Value N) → List (Str × Value N)
  | [] => []
  | (k, v) :: fields => SortedAssoc.insert k (canonicalJson v) (canonicalFields fields)

end

end Canonical

/-- A digit of `{byte:02x}`. -/
def hexByte (byte : UInt8) : Str := [Nat.digitChar (byte.toNat / 16), Nat.digitChar (byte.toNat % 16)]

/-- `serde_json::to_vec` and SHA-256. -/
structure Hashing where
  toVec : Value Nat → Bytes
  toVec_injective : Function.Injective toVec
  sha256 : Bytes → Bytes
  sha256_injective : Function.Injective sha256

def versionForToml (hashing : Hashing) (value : Value Nat) : Str :=
  "sha256:".toList ++ (hashing.sha256 (hashing.toVec (canonicalJson value))).flatMap hexByte

/-- A number as a TOML integer, which has 64 bits and a sign. -/
def tomlInteger (n : Nat) : Option (Value Nat) := if n < 2 ^ 63 then some (.number n) else none

/-- An optional field of a table. -/
def optionalField (name : String) (value : Option (Value Nat)) : List (Str × Value Nat) :=
  (value.map fun v => (name.toList, v)).toList

/-- A handler as a TOML table, where absent options are left out. -/
def HookHandlerConfig.toToml : HookHandlerConfig → Option (Value Nat)
  | .prompt => some (.object [("type".toList, .string "prompt".toList)])
  | .agent => some (.object [("type".toList, .string "agent".toList)])
  | .command text commandWindows timeoutSec isAsync statusMessage additionalContextLimit => do
    let timeout ← timeoutSec.mapM tomlInteger
    let limit ← additionalContextLimit.mapM tomlInteger
    some (.object
      ([("type".toList, .string "command".toList), ("command".toList, .string text)] ++
        optionalField "commandWindows" (commandWindows.map .string) ++ optionalField "timeout" timeout ++
        [("async".toList, .bool isAsync)] ++ optionalField "statusMessage" (statusMessage.map .string) ++
        optionalField "additionalContextLimit" limit))

/-- `NormalizedHookIdentity`, as TOML. -/
def normalizedHookIdentity (event : HookEventName) (group : MatcherGroup) : Option (Value Nat) := do
  let hooks ← group.hooks.mapM HookHandlerConfig.toToml
  some (.object
    ([("event_name".toList, .string event.keyLabel)] ++ optionalField "matcher" (group.matcher.map .string) ++
      [("hooks".toList, .array hooks)]))

/-- `command_hook_hash`. Without a TOML value the code ends in `unreachable!`. -/
def commandHookHash (hashing : Hashing) (event : HookEventName) (matcher : Option Str) (handler : HookHandlerConfig) :
    Option Str :=
  (normalizedHookIdentity event { matcher, hooks := [handler] }).map (versionForToml hashing)

end Dcode.Hooks
