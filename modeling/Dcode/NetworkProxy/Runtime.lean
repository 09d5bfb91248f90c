import Dcode.NetworkProxy.State

/-!
# Deciding requests

`host_blocked` of `codex-rs/network-proxy/src/runtime.rs`, on the state that a reload has left.
-/

namespace Dcode.NetworkProxy

open Str (trim)

inductive HostBlockReason where
  | denied
  | notAllowed
  | notAllowedLocal
deriving DecidableEq

inductive HostBlockDecision where
  | allowed
  | blocked (reason : HostBlockReason)
deriving DecidableEq

def globsetMatchesHostOrUnscoped (crates : Crates) (set : GlobSet) (host : Str) : Bool :=
  set.isMatch crates host || (unscopedIpLiteral host).any (set.isMatch crates)

def isExplicitLocalAllowlisted (allowedDomains : List Str) (host : Host) : Bool :=
  allowedDomains.any fun pattern =>
    let pattern := trim pattern
    -- "*", "*." and "**." are among the patterns with a wildcard
    if '*' ∈ pattern ∨ '?' ∈ pattern then false
    else normalizeHost pattern = host.text || (unscopedIpLiteral host.text).any (normalizeHost pattern = ·)

/-- `host_resolves_to_non_public_ip`; a lookup that fails or times out is `none`. -/
def hostResolvesToNonPublicIp (lookupHost : Str → Nat → Option (List IpAddr)) (host : Str) (port : Nat) : Bool :=
  match IpAddr.parse host with
  | some ip => ip.isNonPublicIp
  | none =>
    match lookupHost host port with
    | some addrs => addrs.any IpAddr.isNonPublicIp
    | none => true

/-- An address or a name of the local machine or network, as far as the text shows it. -/
def isLocalLiteral (host : Host) : Bool :=
  isLoopbackHost host ||
    ((IpAddr.parse ((unscopedIpLiteral host.text).getD host.text)).map IpAddr.isNonPublicIp).getD false

def hostBlocked {Hook : Type} (crates : Crates) (lookupHost : Str → Nat → Option (List IpAddr))
    (state : ConfigState Hook) (host : Str) (port : Nat) : HostBlockDecision :=
  match Host.parse host with
  | .error _ => .blocked .notAllowed
  | .ok host =>
    let allowedDomains := state.config.allowedDomains
    if globsetMatchesHostOrUnscoped crates state.denySet host.text then .blocked .denied
    else
      let isAllowlisted := globsetMatchesHostOrUnscoped crates state.allowSet host.text
      let localBlocked := !state.config.allowLocalBinding &&
        if isLocalLiteral host then !isExplicitLocalAllowlisted (allowedDomains.getD []) host
        else hostResolvesToNonPublicIp lookupHost host.text port
      if localBlocked then .blocked .notAllowedLocal
      else if allowedDomains.isNone || !isAllowlisted then .blocked .notAllowed
      else .allowed

end Dcode.NetworkProxy
