import Dcode.NetworkProxy.Config
import Dcode.NetworkProxy.Policy

/-!
# Managed constraints

`validate_policy_against_constraints` and `build_config_state` of `codex-rs/network-proxy/src/state.rs`. A
hash set is the list of its members; what is reported of one is in the order of that list.
-/

namespace Dcode.NetworkProxy

open Str (trim toAsciiLowercase)

structure NetworkProxyConstraints where
  enabled : Option Bool := none
  mode : Option NetworkMode := none
  allowUpstreamProxy : Option Bool := none
  dangerouslyAllowNonLoopbackProxy : Option Bool := none
  dangerouslyAllowAllUnixSockets : Option Bool := none
  allowedDomains : Option (List Str) := none
  allowlistExpansionEnabled : Option Bool := none
  deniedDomains : Option (List Str) := none
  denylistExpansionEnabled : Option Bool := none
  allowUnixSockets : Option (List Str) := none
  allowLocalBinding : Option Bool := none
deriving DecidableEq

inductive Shown where
  | text (value : Str)
  | debug (values : List Str)
deriving DecidableEq

structure NetworkProxyConstraintError where
  fieldName : Str
  candidate : Shown
  allowed : Shown
deriving DecidableEq

/-- The errors of `build_config_state`. -/
inductive BuildError where
  | unixSocketPath (index : Nat) (path : Str)
  | message (text : Str)
  | constraint (error : NetworkProxyConstraintError)
deriving DecidableEq

/-- The hooks for intercepted requests, of which the state only looks at whether they are well formed,
compile, and whether the state for interception can be made. -/
structure MitmOps (Hook : Type) where
  validate : NetworkProxyConfig Hook → Except Str Unit
  compile : NetworkProxyConfig Hook → Except Str Unit
  newState : (allowUpstreamProxy : Bool) → Except Str Unit

/-! ## The checks -/

/-- `invalid_value` between two texts. -/
def invalidValue (fieldName candidate allowed : String) : NetworkProxyConstraintError :=
  ⟨fieldName.toList, .text candidate.toList, .text allowed.toList⟩

/-- A check that fails with an error. -/
def ensure {ε : Type} (ok : Bool) (error : ε) : Except ε Unit := if ok then .ok () else .error error

/-- A check that is made if there is a constraint (`if let Some(constraint)`). -/
def validateAgainst {ε α : Type} (constraint : Option α) (check : α → Except ε Unit) : Except ε Unit :=
  match constraint with
  | some constraint => check constraint
  | none => .ok ()

/-- The entries of a hash set of lower-cased texts. -/
def lowercaseSet (entries : List Str) : List Str := entries.map toAsciiLowercase

/-- Two hash sets have the same members. -/
def sameSet (left right : List Str) : Bool := left.all (· ∈ right) && right.all (· ∈ left)

/-- A switch that managed configuration may hold off. -/
def validateSwitch (fieldName : String) (candidate allowed : Bool) : Except NetworkProxyConstraintError Unit :=
  ensure (!(candidate && !allowed)) (invalidValue fieldName "true" "false (disabled by managed config)")

def networkModeRank : NetworkMode → Nat
  | .limited => 0
  | .full => 1

def NetworkMode.name : NetworkMode → String
  | .limited => "Limited"
  | .full => "Full"

def validateNonGlobalWildcardDomainPatterns (fieldName : String) (patterns : List Str) :
    Except NetworkProxyConstraintError Unit :=
  match patterns.find? (isGlobalWildcardDomainPattern ·) with
  | some pattern => .error ⟨fieldName.toList, .text (trim pattern),
      .text "exact hosts or scoped wildcards like *.example.com or **.example.com".toList⟩
  | none => .ok ()

def notAllowed (crates : Crates) (managed candidates : List Str) : List Str :=
  let managedPatterns := managed.map (DomainPattern.parseForConstraints crates)
  candidates.filter fun entry =>
    !managedPatterns.any fun pattern => pattern.allows (DomainPattern.parseForConstraints crates entry)

/-- The check of the allowed domains. -/
def validateAllowedDomains (crates : Crates) (managed : List Str) (expansionEnabled : Option Bool)
    (configAllowed configDenied : List Str) : Except NetworkProxyConstraintError Unit := do
  validateNonGlobalWildcardDomainPatterns "network.allowed_domains" managed
  let requiredSet := lowercaseSet managed
  let candidateSet := lowercaseSet configAllowed
  let deniedDomainOverrides := lowercaseSet configDenied
  match expansionEnabled with
  | some true =>
    let missing := requiredSet.filter fun entry =>
      entry ∉ candidateSet && entry ∉ deniedDomainOverrides
    ensure missing.isEmpty ⟨"network.allowed_domains".toList,
      .text "missing managed allowed_domains entries".toList, .debug missing⟩
  | some false =>
    let expectedSet := requiredSet.filter (· ∉ deniedDomainOverrides)
    ensure (sameSet candidateSet expectedSet) ⟨"network.allowed_domains".toList,
      .debug configAllowed, .text "must match managed allowed_domains".toList⟩
  | none =>
    let invalid := notAllowed crates managed configAllowed
    ensure invalid.isEmpty ⟨"network.allowed_domains".toList, .debug invalid,
      .text "subset of managed allowed_domains".toList⟩

/-- The check of the denied domains. -/
def validateDeniedDomains (managed : List Str) (expansionEnabled : Option Bool)
    (configDenied : List Str) : Except NetworkProxyConstraintError Unit := do
  validateNonGlobalWildcardDomainPatterns "network.denied_domains" managed
  let requiredSet := lowercaseSet managed
  let candidateSet := lowercaseSet configDenied
  match expansionEnabled with
  | some false =>
    ensure (sameSet candidateSet requiredSet) ⟨"network.denied_domains".toList,
      .debug configDenied, .text "must match managed denied_domains".toList⟩
  | some true | none =>
    let missing := requiredSet.filter (· ∉ candidateSet)
    ensure missing.isEmpty ⟨"network.denied_domains".toList,
      .text "missing managed denied_domains entries".toList, .debug missing⟩

/-- The check of the allowed sockets. -/
def validateUnixSockets (managed configAllowed : List Str) : Except NetworkProxyConstraintError Unit :=
  let invalid := configAllowed.filter fun entry => toAsciiLowercase entry ∉ lowercaseSet managed
  ensure invalid.isEmpty ⟨"network.allow_unix_sockets".toList, .debug invalid,
    .text "subset of managed allow_unix_sockets".toList⟩

section

variable {Hook : Type} (crates : Crates) (mitm : MitmOps Hook) (config : NetworkProxyConfig Hook)

def validatePolicyAgainstConstraints
    (constraints : NetworkProxyConstraints) : Except NetworkProxyConstraintError Unit := do
  let configAllowedDomains := config.allowedDomains.getD []
  let configDeniedDomains := config.deniedDomains.getD []
  (mitm.validate config).mapError fun text => ⟨"network.mitm_hooks".toList, .text text,
    .text "valid MITM hook configuration".toList⟩
  validateNonGlobalWildcardDomainPatterns "network.denied_domains" configDeniedDomains
  validateAgainst constraints.enabled fun maxEnabled =>
    validateSwitch "network.enabled" config.enabled maxEnabled
  validateAgainst constraints.mode fun maxMode =>
    ensure (networkModeRank config.mode ≤ networkModeRank maxMode)
      (invalidValue "network.mode" config.mode.name (maxMode.name ++ " or more restrictive"))
  validateSwitch "network.allow_upstream_proxy" config.allowUpstreamProxy
    (constraints.allowUpstreamProxy.getD true)
  validateSwitch "network.dangerously_allow_non_loopback_proxy" config.dangerouslyAllowNonLoopbackProxy
    (constraints.dangerouslyAllowNonLoopbackProxy.getD true)
  validateSwitch "network.dangerously_allow_all_unix_sockets" config.dangerouslyAllowAllUnixSockets
    (constraints.dangerouslyAllowAllUnixSockets.getD constraints.allowUnixSockets.isNone)
  validateAgainst constraints.allowLocalBinding fun allowLocalBinding =>
    validateSwitch "network.allow_local_binding" config.allowLocalBinding allowLocalBinding
  validateAgainst constraints.allowedDomains fun allowedDomains =>
    validateAllowedDomains crates allowedDomains constraints.allowlistExpansionEnabled
      configAllowedDomains configDeniedDomains
  validateAgainst constraints.deniedDomains fun deniedDomains =>
    validateDeniedDomains deniedDomains constraints.denylistExpansionEnabled configDeniedDomains
  validateAgainst constraints.allowUnixSockets fun allowUnixSockets =>
    validateUnixSockets allowUnixSockets config.allowUnixSockets

/-! ## The state -/

structure ConfigState (Hook : Type) where
  config : NetworkProxyConfig Hook
  allowSet : GlobSet
  denySet : GlobSet
  constraints : NetworkProxyConstraints
deriving DecidableEq

def validateUnixSocketAllowlistPaths : Except BuildError Unit :=
  match (config.allowUnixSockets.zipIdx.find? fun socket => socket.1.head? ≠ some '/') with
  | some (path, index) => .error (.unixSocketPath index path)
  | none => .ok ()

def buildConfigState (constraints : NetworkProxyConstraints) : Except BuildError (ConfigState Hook) := do
  validateUnixSocketAllowlistPaths config
  ensure (!config.credentialBroker || config.mitm)
    (.message "network.credential_broker requires network.mitm = true".toList)
  let allowedDomains := config.allowedDomains.getD []
  let deniedDomains := config.deniedDomains.getD []
  (validateNonGlobalWildcardDomainPatterns "network.denied_domains" deniedDomains).mapError .constraint
  let denySet ← (compileDenylistGlobset crates deniedDomains).mapError .message
  let allowSet ← (compileAllowlistGlobset crates allowedDomains).mapError .message
  (mitm.compile config).mapError .message
  (if config.mitm then mitm.newState config.allowUpstreamProxy else .ok ()).mapError .message
  return { config, allowSet, denySet, constraints }

end

end Dcode.NetworkProxy
