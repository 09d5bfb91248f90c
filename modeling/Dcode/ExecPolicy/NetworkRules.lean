import Dcode.ExecPolicy.Policy

/-!
# Network rules

The hosts of network rules in their normal form (`codex-rs/execpolicy/src/rule.rs`), and the lists of domains that
the rules are compiled to (`policy.rs`).
-/

namespace Dcode.ExecPolicy

open Str (trim splitOnce stripPrefix)

def isPort (port : Str) : Bool := !port.isEmpty && port.all (·.isDigit)

def hostPart (raw host : Str) : Except Error Str :=
  match stripPrefix ['['] host with
  | some stripped =>
    match splitOnce ']' stripped with
    | none => .error (.invalidRule "network_rule host has an invalid bracketed IPv6 literal".toList)
    | some (inside, rest) =>
      if !rest.isEmpty && !(stripPrefix [':'] rest).any isPort then
        .error (.invalidRule ("network_rule host contains an unsupported suffix: ".toList ++ raw))
      else .ok inside
  | none =>
    -- with one `:` in the host it does not matter from which side it is split
    match if host.count ':' = 1 then splitOnce ':' host else none with
    | some (candidate, port) => .ok (if !candidate.isEmpty && isPort port then candidate else host)
    | none => .ok host

/-- What `normalize_network_rule_host` does once brackets and ports are gone. -/
def finishHost (host : Str) : Except Error Str :=
  let normalized := Str.toAsciiLowercase (trim (Str.trimEndMatches '.' host))
  if normalized.isEmpty then .error (.invalidRule "network_rule host cannot be empty".toList)
  else if '*' ∈ normalized then .error (.invalidRule
    "network_rule host must be a specific host; wildcards are not allowed".toList)
  else if normalized.any Str.isWhitespace then .error (.invalidRule
    "network_rule host cannot contain whitespace".toList)
  else .ok normalized

def normalizeNetworkRuleHost (raw : Str) : Except Error Str :=
  let host := trim raw
  if host.isEmpty then .error (.invalidRule "network_rule host cannot be empty".toList)
  else if (Str.find "://".toList host).isSome || '/' ∈ host || '?' ∈ host || '#' ∈ host then .error (.invalidRule
    "network_rule host must be a hostname or IP literal (without scheme or path)".toList)
  else hostPart raw host >>= finishHost

namespace Policy

def addNetworkRule (policy : Policy) (host : Str) (protocol : NetworkRuleProtocol) (decision : Decision)
    (justification : Option Str) : Except Error Policy := do
  let host ← normalizeNetworkRuleHost host
  if justification.any fun raw => (trim raw).isEmpty then
    throw (.invalidRule "justification cannot be empty".toList)
  return { policy with networkRules := policy.networkRules ++ [⟨host, protocol, decision, justification⟩] }

def upsertDomain (entries : List Str) (host : Str) : List Str := entries.filter (· ≠ host) ++ [host]

def compileNetworkRule (domains : List Str × List Str) (rule : NetworkRule) : List Str × List Str :=
  let (allowed, denied) := domains
  match rule.decision with
  | .allow => (upsertDomain allowed rule.host, denied.filter (· ≠ rule.host))
  | .forbidden => (allowed.filter (· ≠ rule.host), upsertDomain denied rule.host)
  | .prompt => (allowed, denied)

def compiledNetworkDomains (policy : Policy) : List Str × List Str :=
  policy.networkRules.foldl compileNetworkRule ([], [])

end Policy

end Dcode.ExecPolicy
