import Dcode.ExecPolicy.Rule
import Mathlib.Data.List.AList

/-!
# The exec policy

`Policy` of `codex-rs/execpolicy/src/policy.rs`: rules by the first token of the command, and the paths at
which a program name may stand. A command is matched by the rules of its first token; only if there is
none, by the rules of the name of the program that its first token resolves to.
-/

namespace Dcode.ExecPolicy

/-- The errors of the crate that adding a rule can return. -/
inductive Error where
  | invalidPattern (message : Str)
  | invalidRule (message : Str)
deriving DecidableEq

structure MatchOptions where
  resolveHostExecutables : Bool := false
deriving DecidableEq

structure Policy where
  rulesByProgram : AList fun _ : Str => List PrefixRule := ∅
  networkRules : List NetworkRule := []
  hostExecutablesByName : AList fun _ : Str => List AbsolutePathBuf := ∅

structure Evaluation where
  decision : Decision
  matchedRules : List RuleMatch

def executablePathLookupKey (path : AbsolutePathBuf) : Option Str := path.fileName

namespace Policy

/-- `get_vec`, no rules for a program without an entry. -/
def rulesFor (policy : Policy) (program : Str) : List PrefixRule :=
  (policy.rulesByProgram.lookup program).getD []

def insertRule (rules : AList fun _ : Str => List PrefixRule) (program : Str) (rule : PrefixRule) :
    AList fun _ : Str => List PrefixRule :=
  rules.insert program ((rules.lookup program).getD [] ++ [rule])

def tokensRule (first : Str) (rest : List Str) (decision : Decision) : PrefixRule where
  pattern := { first := first, rest := rest.map .single }
  decision := decision
  justification := none

def addPrefixRule (policy : Policy) (tokens : List Str) (decision : Decision) : Except Error Policy :=
  match tokens with
  | [] => .error (.invalidPattern "prefix cannot be empty".toList)
  | first :: rest => .ok { policy with
      rulesByProgram := insertRule policy.rulesByProgram first (tokensRule first rest decision) }

def mergeOverlay (policy overlay : Policy) : Policy where
  rulesByProgram := overlay.rulesByProgram.entries.foldl (fun rules entry =>
    entry.2.foldl (fun rules rule => insertRule rules entry.1 rule) rules) policy.rulesByProgram
  networkRules := policy.networkRules ++ overlay.networkRules
  -- the paths of the overlay replace those of the policy
  hostExecutablesByName := overlay.hostExecutablesByName ∪ policy.hostExecutablesByName

def matchExactRules (policy : Policy) (cmd : List Str) : Option (List RuleMatch) :=
  match cmd with
  | [] => none
  | first :: _ => some (((policy.rulesByProgram.lookup first).map
      fun rules => rules.filterMap (PrefixRule.matches · cmd)).getD [])

def resolveProgram (env : ProcessEnv) (first : Str) : Option (AbsolutePathBuf × Str) := do
  let program ← AbsolutePathBuf.fromAbsolutePath env first
  let basename ← executablePathLookupKey program
  return (program, basename)

def matchHostExecutableRules (env : ProcessEnv) (policy : Policy) (cmd : List Str) : List RuleMatch :=
  match cmd with
  | [] => []
  | first :: args =>
    match resolveProgram env first with
    | none => []
    | some (program, basename) =>
      match policy.rulesByProgram.lookup basename with
      | none => []
      | some rules =>
        if (policy.hostExecutablesByName.lookup basename).any (program ∉ ·) then []
        else (rules.filterMap (PrefixRule.matches · (basename :: args))).map
          (RuleMatch.withResolvedProgram program)

def matchesForCommandWithOptions (env : ProcessEnv) (policy : Policy) (cmd : List Str)
    (heuristicsFallback : Option (List Str → Decision)) (options : MatchOptions) : List RuleMatch :=
  let matchedRules := (((policy.matchExactRules cmd).filter (· ≠ [])).orElse fun _ =>
    (if options.resolveHostExecutables then some (policy.matchHostExecutableRules env cmd) else none).filter
      (· ≠ [])).getD []
  match matchedRules, heuristicsFallback with
  | [], some heuristicsFallback => [.heuristicsRuleMatch cmd (heuristicsFallback cmd)]
  | matchedRules, _ => matchedRules

end Policy

/-- `Evaluation::from_matches`; `none` stands for the panic on an empty list. -/
def Evaluation.fromMatches (matchedRules : List RuleMatch) : Option Evaluation :=
  (matchedRules.map RuleMatch.decision).max?.map fun decision =>
    { decision := decision, matchedRules := matchedRules }

def Policy.checkWithOptions (env : ProcessEnv) (policy : Policy) (cmd : List Str)
    (heuristicsFallback : List Str → Decision) (options : MatchOptions) : Option Evaluation :=
  Evaluation.fromMatches (policy.matchesForCommandWithOptions env cmd (some heuristicsFallback) options)

def Policy.checkMultipleWithOptions (env : ProcessEnv) (policy : Policy) (commands : List (List Str))
    (heuristicsFallback : List Str → Decision) (options : MatchOptions) : Option Evaluation :=
  Evaluation.fromMatches (commands.flatMap fun cmd =>
    policy.matchesForCommandWithOptions env cmd (some heuristicsFallback) options)

end Dcode.ExecPolicy
