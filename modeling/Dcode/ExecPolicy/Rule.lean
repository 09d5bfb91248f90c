import Dcode.AbsolutePath

/-!
# Rules of the exec policy

`Decision`, `PrefixRule` and what a rule matches (`codex-rs/execpolicy/src/decision.rs`, `rule.rs`).
-/

namespace Dcode.ExecPolicy

/-- `Decision`, from the most to the least permissive. -/
inductive Decision where
  | allow
  | prompt
  | forbidden
deriving DecidableEq

def Decision.rank : Decision → Nat
  | allow => 0
  | prompt => 1
  | forbidden => 2

theorem Decision.rank_injective : Function.Injective Decision.rank := by
  intro d e h
  cases d <;> cases e <;> first | rfl | cases h

instance : LinearOrder Decision := LinearOrder.lift' Decision.rank Decision.rank_injective

@[simp] theorem Decision.allow_le (d : Decision) : Decision.allow ≤ d := Nat.zero_le d.rank

inductive PatternToken where
  | single (expected : Str)
  | alts (alternatives : List Str)
deriving DecidableEq

def PatternToken.matches : PatternToken → Str → Bool
  | single expected, token => expected = token
  | alts alternatives, token => token ∈ alternatives

structure PrefixPattern where
  first : Str
  rest : List PatternToken
deriving DecidableEq

def PrefixPattern.matchesPrefix (pattern : PrefixPattern) (cmd : List Str) : Option (List Str) :=
  let patternLength := pattern.rest.length + 1
  if cmd.length < patternLength ∨ cmd.head? ≠ some pattern.first then none
  else if (pattern.rest.zip cmd.tail).all fun pair => pair.1.matches pair.2 then
    some (cmd.take patternLength)
  else none

inductive RuleMatch where
  | prefixRuleMatch (matchedPrefix : List Str) (decision : Decision)
      (resolvedProgram : Option AbsolutePathBuf) (justification : Option Str)
  | heuristicsRuleMatch (command : List Str) (decision : Decision)
deriving DecidableEq

def RuleMatch.decision : RuleMatch → Decision
  | prefixRuleMatch _ decision _ _ => decision
  | heuristicsRuleMatch _ decision => decision

def RuleMatch.withResolvedProgram (program : AbsolutePathBuf) : RuleMatch → RuleMatch
  | prefixRuleMatch matchedPrefix decision _ justification =>
    prefixRuleMatch matchedPrefix decision (some program) justification
  | other => other

def RuleMatch.isPolicyMatch : RuleMatch → Bool
  | prefixRuleMatch .. => true
  | heuristicsRuleMatch .. => false

/-- `PrefixRule`, the one kind of `Rule`. -/
structure PrefixRule where
  pattern : PrefixPattern
  decision : Decision
  justification : Option Str
deriving DecidableEq

def PrefixRule.matches (rule : PrefixRule) (cmd : List Str) : Option RuleMatch :=
  (rule.pattern.matchesPrefix cmd).map fun matchedPrefix =>
    .prefixRuleMatch matchedPrefix rule.decision none rule.justification

inductive NetworkRuleProtocol where
  | http
  | https
  | socks5Tcp
  | socks5Udp
deriving DecidableEq

structure NetworkRule where
  host : Str
  protocol : NetworkRuleProtocol
  decision : Decision
  justification : Option Str
deriving DecidableEq

end Dcode.ExecPolicy
