import Dcode.Lib.Str

/-!
# Configuration of the network proxy

`NetworkProxyConfig` of `codex-rs/network-proxy/src/config.rs`: the domain entries with their effective
permissions, and the settings that managed constraints look at.
-/

namespace Dcode.NetworkProxy

inductive NetworkDomainPermission where
  | none
  | allow
  | deny
deriving DecidableEq

/-- The order of the variants: a deny wins over an allow. -/
def NetworkDomainPermission.rank : NetworkDomainPermission → Nat
  | none => 0
  | allow => 1
  | deny => 2

structure NetworkDomainPermissionEntry where
  pattern : Str
  permission : NetworkDomainPermission
deriving DecidableEq

/-- The entry that raises the permission of its pattern, or comes last as a new one: the body of the loop
of `effective_entries`. -/
def insertEntry (effective : List NetworkDomainPermissionEntry) (entry : NetworkDomainPermissionEntry) :
    List NetworkDomainPermissionEntry :=
  if effective.any (·.pattern = entry.pattern) then
    effective.map fun e =>
      if e.pattern = entry.pattern ∧ e.permission.rank < entry.permission.rank then entry else e
  else effective ++ [entry]

def effectiveEntries (entries : List NetworkDomainPermissionEntry) : List NetworkDomainPermissionEntry :=
  entries.foldl insertEntry []

inductive NetworkUnixSocketPermission where
  | allow
  | deny
deriving DecidableEq

inductive NetworkMode where
  | limited
  | full
deriving DecidableEq

structure NetworkProxyConfig (Hook : Type) where
  enabled : Bool := false
  allowUpstreamProxy : Bool := true
  dangerouslyAllowNonLoopbackProxy : Bool := false
  dangerouslyAllowAllUnixSockets : Bool := false
  mode : NetworkMode := .full
  domains : Option (List NetworkDomainPermissionEntry) := none
  unixSockets : Option (List (Str × NetworkUnixSocketPermission)) := none
  allowLocalBinding : Bool := false
  mitm : Bool := false
  credentialBroker : Bool := false
  mitmHooks : List Hook := []
deriving DecidableEq

namespace NetworkProxyConfig

variable {Hook : Type} (config : NetworkProxyConfig Hook)

def domainEntries (permission : NetworkDomainPermission) : Option (List Str) :=
  (config.domains.map fun entries =>
    ((effectiveEntries entries).filter (·.permission = permission)).map
      NetworkDomainPermissionEntry.pattern).filter (· ≠ [])

def allowedDomains : Option (List Str) :=
  config.domainEntries .allow

def deniedDomains : Option (List Str) :=
  config.domainEntries .deny

def allowUnixSockets : List Str :=
  ((config.unixSockets.getD []).filter (·.2 = .allow)).map Prod.fst

end NetworkProxyConfig

end Dcode.NetworkProxy
