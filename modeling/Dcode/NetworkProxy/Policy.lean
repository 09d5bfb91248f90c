import Dcode.NetworkProxy.IpAddr

/-!
# Domain patterns and hosts

Normalization of hosts and patterns, the patterns that constraints compare and the globs that requests are
matched against (`codex-rs/network-proxy/src/policy.rs`). The `globset` and `url` crates are parameters.
-/

namespace Dcode.NetworkProxy

open Str (trim stripPrefix splitOnce splitOnceStr toAsciiLowercase trimEndMatches)

/-- What the policy takes from other crates: which globs `GlobBuilder` accepts, whether the set of them
builds, what a glob matches without regard to case, and `url::Host::parse` with its result as text. -/
structure Crates where
  globBuilds : Str → Bool
  globSetBuilds : List Str → Bool
  globMatches : Str → Str → Bool
  urlHostParse : Str → Option Str

/-! ## Hosts -/

def unscopedIpLiteral (host : Str) : Option Str := do
  let (ip, _) ← splitOnce '%' host
  let _ ← IpAddr.parse ip
  return ip

def scopedIpLiteral (delimiter host : Str) : Option Str := do
  let (ip, scope) ← splitOnceStr delimiter host
  let _ ← IpAddr.parse ip
  return ip ++ '%' :: scope

def normalizeIpLiteral (host : Str) : Option Str :=
  if (IpAddr.parse host).isSome then some host
  else (scopedIpLiteral "%25".toList host).orElse fun _ => scopedIpLiteral "%".toList host

def normalizeDnsHostOrIpLiteral (host : Str) : Str :=
  let host := trimEndMatches '.' (toAsciiLowercase host)
  (normalizeIpLiteral host).getD host

def normalizeHost (host : Str) : Str :=
  let host := trim host
  if host.head? = some '[' ∧ ']' ∈ host then
    normalizeDnsHostOrIpLiteral (host.tail.takeWhile (· ≠ ']'))
  -- a port is stripped when there is exactly one `:`
  else if host.count ':' = 1 then normalizeDnsHostOrIpLiteral (host.takeWhile (· ≠ ':'))
  else normalizeDnsHostOrIpLiteral host

/-- `Host`: a host in its normal form. -/
structure Host where
  text : Str
deriving DecidableEq

def Host.parse (input : Str) : Except Str Host :=
  let normalized := normalizeHost input
  if normalized.isEmpty then .error "host is empty".toList else .ok ⟨normalized⟩

def isLoopbackHost (host : Host) : Bool :=
  let host := (unscopedIpLiteral host.text).getD host.text
  if host = "localhost".toList then true
  else ((IpAddr.parse host).map IpAddr.isLoopback).getD false

/-! ## Patterns -/

def subdomainsPrefix : Str := "*.".toList

def apexPrefix : Str := "**.".toList

def normalizePattern (pattern : Str) : Str :=
  let pattern := trim pattern
  if pattern = "*".toList then "*".toList
  else match stripPrefix apexPrefix pattern with
    | some domain => apexPrefix ++ normalizeHost domain
    | none =>
      match stripPrefix subdomainsPrefix pattern with
      | some domain => subdomainsPrefix ++ normalizeHost domain
      | none => normalizeHost pattern

inductive DomainPattern where
  | apexAndSubdomains (domain : Str)
  | subdomainsOnly (domain : Str)
  | exact (domain : Str)
deriving DecidableEq

namespace DomainPattern

def parseDomain (domain : Str) (build : Str → DomainPattern) : DomainPattern :=
  let domain := trim domain
  if domain.isEmpty then exact [] else build domain

def parse (input : Str) : DomainPattern :=
  let input := trim input
  if input.isEmpty then exact []
  else match stripPrefix apexPrefix input with
    | some domain => parseDomain domain apexAndSubdomains
    | none =>
      match stripPrefix subdomainsPrefix input with
      | some domain => parseDomain domain subdomainsOnly
      | none => exact input

/-- `parse_domain_for_constraints`: a domain that `url` rejects is the empty one. -/
def parseDomainForConstraints (crates : Crates) (domain : Str) : Str :=
  let domain := trimEndMatches '.' (trim domain)
  if domain.isEmpty then []
  else
    let host := if domain.head? = some '[' ∧ domain.getLast? = some ']' then domain.tail.dropLast
      else domain
    if '*' ∈ host ∨ '?' ∈ host ∨ '%' ∈ host then domain else (crates.urlHostParse host).getD []

def parseForConstraints (crates : Crates) (input : Str) : DomainPattern :=
  let input := trim input
  if input.isEmpty then exact []
  else match stripPrefix apexPrefix input with
    | some domain => apexAndSubdomains (parseDomainForConstraints crates domain)
    | none =>
      match stripPrefix subdomainsPrefix input with
      | some domain => subdomainsOnly (parseDomainForConstraints crates domain)
      | none => exact (parseDomainForConstraints crates input)

def normalizeDomain (domain : Str) : Str := toAsciiLowercase (trimEndMatches '.' domain)

def domainEq (left right : Str) : Bool := normalizeDomain left = normalizeDomain right

/-- `str::ends_with` the parent behind a dot. -/
def endsUnder (child parent : Str) : Bool := ('.' :: parent).isSuffixOf child

def isSubdomainOrEqual (child parent : Str) : Bool :=
  let child := normalizeDomain child
  let parent := normalizeDomain parent
  if child = parent then true else endsUnder child parent

def isStrictSubdomain (child parent : Str) : Bool :=
  let child := normalizeDomain child
  let parent := normalizeDomain parent
  child ≠ parent && endsUnder child parent

def allows : DomainPattern → DomainPattern → Bool
  | exact domain, exact candidate => domainEq candidate domain
  | exact _, _ => false
  | subdomainsOnly domain, exact candidate => isStrictSubdomain candidate domain
  | subdomainsOnly domain, subdomainsOnly candidate => isSubdomainOrEqual candidate domain
  | subdomainsOnly domain, apexAndSubdomains candidate => isStrictSubdomain candidate domain
  | apexAndSubdomains domain, exact candidate => isSubdomainOrEqual candidate domain
  | apexAndSubdomains domain, subdomainsOnly candidate => isSubdomainOrEqual candidate domain
  | apexAndSubdomains domain, apexAndSubdomains candidate => isSubdomainOrEqual candidate domain

end DomainPattern

/-- The glob of the proper subdomains. -/
def subdomainsGlob (domain : Str) : Str := "?*.".toList ++ domain

def expandDomainPattern (pattern : Str) : List Str :=
  match DomainPattern.parse pattern with
  | .exact domain => [domain]
  | .subdomainsOnly domain => [subdomainsGlob domain]
  | .apexAndSubdomains domain => [domain, subdomainsGlob domain]

def isGlobalWildcardDomainPattern (pattern : Str) : Bool :=
  (expandDomainPattern (normalizePattern pattern)).any (· = "*".toList)

/-! ## Glob sets -/

inductive GlobalWildcard where
  | allow
  | reject
deriving DecidableEq

/-- A compiled set: the globs that it holds. -/
structure GlobSet where
  globs : List Str
deriving DecidableEq

variable (crates : Crates)

def GlobSet.isMatch (set : GlobSet) (host : Str) : Bool :=
  set.globs.any fun glob => crates.globMatches glob host

/-- Adds a glob that was not seen before. -/
def addGlob (globs : List Str) (candidate : Str) : Except Str (List Str) :=
  if candidate ∈ globs then .ok globs
  else if crates.globBuilds candidate then .ok (globs ++ [candidate])
  else .error ("invalid glob pattern: ".toList ++ candidate)

def globalWildcardError : Str :=
  ("unsupported global wildcard domain pattern \"*\"; use exact hosts or scoped wildcards like " ++
    "*.example.com or **.example.com").toList

def addPattern (globalWildcard : GlobalWildcard) (globs : List Str) (pattern : Str) : Except Str (List Str) :=
  if globalWildcard = .reject && isGlobalWildcardDomainPattern pattern then .error globalWildcardError
  else (expandDomainPattern (normalizePattern pattern)).foldlM (addGlob crates) globs

def compileGlobsetWithPolicy (patterns : List Str) (globalWildcard : GlobalWildcard) : Except Str GlobSet := do
  let globs ← patterns.foldlM (addPattern crates globalWildcard) []
  if crates.globSetBuilds globs then return ⟨globs⟩
  else throw "failed to build the glob set".toList

def compileAllowlistGlobset (patterns : List Str) : Except Str GlobSet :=
  compileGlobsetWithPolicy crates patterns .allow

def compileDenylistGlobset (patterns : List Str) : Except Str GlobSet :=
  compileGlobsetWithPolicy crates patterns .reject

end Dcode.NetworkProxy
