import Dcode.ExecPolicy.Policy

/-!
# Amendments of the exec policy

`append_amendment_and_update` of `codex-rs/core/src/exec_policy.rs`: an accepted prefix is appended to the
rules file as an allow rule (`codex-rs/execpolicy/src/amend.rs`) and added to the policy in memory, unless
that allows it already.
-/

namespace Dcode.ExecPolicy

/-! ## The rules file -/

def hexDigit (n : Nat) : Char := "0123456789abcdef".toList.getD n '0'

def jsonEscape (c : Char) : Str :=
  if c = '"' then ['\\', '"']
  else if c = '\\' then ['\\', '\\']
  else if c = '\n' then ['\\', 'n']
  else if c = '\r' then ['\\', 'r']
  else if c = '\t' then ['\\', 't']
  else if c.toNat = 8 then ['\\', 'b']
  else if c.toNat = 12 then ['\\', 'f']
  else if c.toNat < 32 then ['\\', 'u', '0', '0', hexDigit (c.toNat / 16), hexDigit (c.toNat % 16)]
  else [c]

/-- `serde_json::to_string` of a string. -/
def jsonString (s : Str) : Str := '"' :: s.flatMap jsonEscape ++ ['"']

/-- The line that stands for an allow rule of the tokens. -/
def allowRuleLine (tokens : List Str) : Str :=
  "prefix_rule(pattern=[".toList ++ [',', ' '].intercalate (tokens.map jsonString) ++
    "], decision=\"allow\")".toList

/-- `append_locked_line`, on the contents of the file. -/
def appendLockedLine (contents line : Str) : Str :=
  if line ∈ Str.lines contents then contents
  else
    let contents := if contents ≠ [] ∧ contents.getLast? ≠ some '\n' then contents ++ ['\n'] else contents
    contents ++ line ++ ['\n']

/-- `AmendError`, without the failures of the file system. -/
inductive AmendError where
  | emptyPrefix
deriving DecidableEq

def blockingAppendAllowPrefixRule (contents : Str) (tokens : List Str) : Except AmendError Str :=
  if tokens = [] then .error .emptyPrefix else .ok (appendLockedLine contents (allowRuleLine tokens))

/-! ## The manager -/

inductive ExecPolicyUpdateError where
  | appendRule (source : AmendError)
  | addRule (source : Error)
deriving DecidableEq

structure ExecPolicyManager where
  policy : Policy
  rulesFile : Str

def alreadyAllowed (env : ProcessEnv) (policy : Policy) (command : List Str) : Bool :=
  (policy.checkMultipleWithOptions env [command] (fun _ => .forbidden)
    { resolveHostExecutables := true }).any fun evaluation =>
      evaluation.decision = .allow &&
        evaluation.matchedRules.any fun m => m.isPolicyMatch && m.decision = .allow

def appendAmendmentAndUpdate (env : ProcessEnv) (manager : ExecPolicyManager) (command : List Str) :
    Except ExecPolicyUpdateError ExecPolicyManager :=
  match blockingAppendAllowPrefixRule manager.rulesFile command with
  | .error source => .error (.appendRule source)
  | .ok rulesFile =>
    if alreadyAllowed env manager.policy command then .ok { manager with rulesFile := rulesFile }
    else
      match manager.policy.addPrefixRule command .allow with
      | .error source => .error (.addRule source)
      | .ok policy => .ok { policy := policy, rulesFile := rulesFile }

def afterAmendment (env : ProcessEnv) (manager : ExecPolicyManager) (command : List Str) : ExecPolicyManager :=
  match appendAmendmentAndUpdate env manager command with
  | .ok manager => manager
  | .error _ => manager

/-- The manager after a sequence of calls. -/
def afterAmendments (env : ProcessEnv) (manager : ExecPolicyManager) (commands : List (List Str)) : ExecPolicyManager :=
  commands.foldl (afterAmendment env) manager

/-! ## What the file stands for -/

/-- The policy with an allow rule for the tokens. -/
def allowTokens (policy : Policy) (tokens : List Str) : Policy :=
  match policy.addPrefixRule tokens .allow with
  | .ok policy => policy
  | .error _ => policy

/-- The policy rebuilt from the file after a sequence of calls: what it stood for before, and a rule for
each line that was appended. -/
def rebuiltPolicy (policy : Policy) (rulesFile : Str) : List (List Str) → Policy
  | [] => policy
  | command :: commands =>
    if command = [] ∨ allowRuleLine command ∈ Str.lines rulesFile then
      rebuiltPolicy policy rulesFile commands
    else
      rebuiltPolicy (allowTokens policy command) (appendLockedLine rulesFile (allowRuleLine command))
        commands

end Dcode.ExecPolicy
