import Dcode.Lib.IndexMap
import Dcode.NetworkProxy.Policy

/-!
# Merging the domains of a permission profile

`merge_toml_values_at_path` of `codex-rs/config/src/merge.rs` for two tables of permissions at the path
`permissions.<profile>.network.domains`. Tables keep the order of their entries (`preserve_order`).
-/

namespace Dcode.Config

inductive NetworkDomainPermissionToml where
  | allow
  | deny
deriving DecidableEq

abbrev NetworkDomains := List (Str × NetworkDomainPermissionToml)

def normalizeNetworkDomainKeys (table : NetworkDomains) : NetworkDomains :=
  table.foldl (fun table e => IndexMap.insert (NetworkProxy.normalizeHost e.1) e.2 table) []

/-- A permission replaces the one that the base has for its key: neither is a table. -/
def mergeNetworkDomains (base overlay : NetworkDomains) : NetworkDomains :=
  (normalizeNetworkDomainKeys overlay).foldl (fun table e => IndexMap.insert e.1 e.2 table)
    (normalizeNetworkDomainKeys base)

end Dcode.Config
