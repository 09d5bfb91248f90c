import Dcode.Lib.AsciiCase
import Dcode.Lib.Run
import Dcode.NetworkProxy.Runtime

/-!
# Managed denials

What a compiled set matches, and that the set of a configuration that passes the managed denied domains
matches whatever their own globs match: the check compares lower-cased texts, and every step from a text
to its globs forgets the case first.
-/

namespace Dcode.NetworkProxy

open Run Str List Except

/-! ## Compiled sets -/

def patternGlobs (pattern : Str) : List Str := expandDomainPattern (normalizePattern pattern)

theorem mem_foldlM_addGlob {crates : Crates} {candidates globs result : List Str}
    (h : candidates.foldlM (addGlob crates) globs = .ok result) (g : Str) :
    g ∈ result ↔ g ∈ globs ∨ g ∈ candidates := by
  induction candidates generalizing globs with
  | nil =>
    obtain rfl := ok.inj h
    simp
  | cons candidate candidates ih =>
    obtain ⟨next, hnext, hrest⟩ := foldlM_cons_eq_ok.mp h
    have hmem : g ∈ next ↔ g ∈ globs ∨ g = candidate := by
      unfold addGlob at hnext
      split at hnext
      next hin =>
        obtain rfl := ok.inj hnext
        constructor
        · exact .inl
        · rintro (hg | rfl)
          · exact hg
          · exact hin
      · split at hnext
        · obtain rfl := ok.inj hnext
          simp
        · cases hnext
    rw [ih hrest, hmem, mem_cons, or_assoc]

theorem mem_foldlM_addPattern {crates : Crates} {globalWildcard : GlobalWildcard} {patterns globs result : List Str}
    (h : patterns.foldlM (addPattern crates globalWildcard) globs = .ok result) (g : Str) :
    g ∈ result ↔ g ∈ globs ∨ ∃ pattern ∈ patterns, g ∈ patternGlobs pattern := by
  induction patterns generalizing globs with
  | nil =>
    obtain rfl := ok.inj h
    simp
  | cons pattern patterns ih =>
    obtain ⟨next, hnext, hrest⟩ := foldlM_cons_eq_ok.mp h
    have hmem : g ∈ next ↔ g ∈ globs ∨ g ∈ patternGlobs pattern := by
      unfold addPattern at hnext
      split at hnext
      · cases hnext
      · exact mem_foldlM_addGlob hnext g
    rw [ih hrest, hmem, or_assoc]
    simp

theorem isMatch_compile {crates : Crates} {patterns : List Str} {globalWildcard : GlobalWildcard}
    {set : GlobSet} (h : compileGlobsetWithPolicy crates patterns globalWildcard = .ok set)
    (host : Str) : set.isMatch crates host ↔
      ∃ pattern ∈ patterns, ∃ g ∈ patternGlobs pattern, crates.globMatches g host := by
  obtain ⟨globs, hglobs, hset⟩ := bind_eq_ok.mp h
  split at hset
  · obtain rfl := ok.inj hset
    simp only [GlobSet.isMatch, any_eq_true, mem_foldlM_addPattern hglobs, not_mem_nil, false_or]
    constructor
    · rintro ⟨g, ⟨pattern, hpattern, hg⟩, hm⟩
      exact ⟨pattern, hpattern, g, hg, hm⟩
    · rintro ⟨pattern, hpattern, g, hg, hm⟩
      exact ⟨g, ⟨pattern, hpattern, hg⟩, hm⟩
  · cases hset

/-! ## Case -/

theorem not_isAlpha_star : ∀ c ∈ "*".toList, c.isAlpha = false := by simp

theorem not_isAlpha_apexPrefix : ∀ c ∈ apexPrefix, c.isAlpha = false := by simp [apexPrefix]

theorem not_isAlpha_subdomainsPrefix : ∀ c ∈ subdomainsPrefix, c.isAlpha = false := by
  simp [subdomainsPrefix]

theorem normalizeDnsHostOrIpLiteral_lowercase (host : Str) :
    normalizeDnsHostOrIpLiteral (toAsciiLowercase host) = normalizeDnsHostOrIpLiteral host := by
  simp [normalizeDnsHostOrIpLiteral]

theorem normalizeHost_lowercase (host : Str) : normalizeHost (toAsciiLowercase host) = normalizeHost host := by
  simp only [normalizeHost, trim_toAsciiLowercase, head?_toAsciiLowercase (show '['.isAlpha = false from rfl),
    mem_toAsciiLowercase (show ']'.isAlpha = false from rfl),
    count_toAsciiLowercase (show ':'.isAlpha = false from rfl), tail_toAsciiLowercase,
    takeWhile_toAsciiLowercase (show ']'.isAlpha = false from rfl),
    takeWhile_toAsciiLowercase (show ':'.isAlpha = false from rfl),
    normalizeDnsHostOrIpLiteral_lowercase]

theorem normalizePattern_lowercase (pattern : Str) :
    normalizePattern (toAsciiLowercase pattern) = normalizePattern pattern := by
  have hstar : toAsciiLowercase (trim pattern) = "*".toList ↔ trim pattern = "*".toList :=
    toAsciiLowercase_eq_iff not_isAlpha_star
  simp only [normalizePattern, trim_toAsciiLowercase, hstar, stripPrefix_toAsciiLowercase not_isAlpha_apexPrefix,
    stripPrefix_toAsciiLowercase not_isAlpha_subdomainsPrefix]
  split
  · rfl
  · cases stripPrefix apexPrefix (trim pattern) with
    | some domain => simp [normalizeHost_lowercase]
    | none =>
      cases stripPrefix subdomainsPrefix (trim pattern) with
      | some domain | none => simp [normalizeHost_lowercase]

/-- Patterns that differ in case only are compiled to the same globs. -/
theorem patternGlobs_congr {left right : Str} (h : toAsciiLowercase left = toAsciiLowercase right) :
    patternGlobs left = patternGlobs right := by
  rw [patternGlobs, ← normalizePattern_lowercase left, h, normalizePattern_lowercase]
  rfl

/-! ## What a valid configuration meets -/

section

variable {Hook : Type} {crates : Crates} {mitm : MitmOps Hook} {config : NetworkProxyConfig Hook}
  {constraints : NetworkProxyConstraints} {state : ConfigState Hook}

theorem mapError_eq_ok {ε ε' α : Type} {f : ε → ε'} {x : Except ε α} {a : α} : x.mapError f = .ok a ↔ x = .ok a := by
  cases x <;> simp [Except.mapError]

theorem ensure_eq_ok {ε : Type} {ok : Bool} {error : ε} : ensure ok error = .ok () ↔ ok := by
  cases ok <;> simp [ensure]

theorem validate_domains (h : validatePolicyAgainstConstraints crates mitm config constraints = .ok ()) :
    validateAgainst constraints.allowedDomains (fun allowedDomains =>
      validateAllowedDomains crates allowedDomains constraints.allowlistExpansionEnabled
        (config.allowedDomains.getD []) (config.deniedDomains.getD [])) = .ok () ∧
    validateAgainst constraints.deniedDomains (fun deniedDomains =>
      validateDeniedDomains deniedDomains constraints.denylistExpansionEnabled
        (config.deniedDomains.getD [])) = .ok () := by
  unfold validatePolicyAgainstConstraints at h
  simp only [bind_eq_ok] at h
  obtain ⟨_, -, _, -, _, -, _, -, _, -, _, -, _, -, _, -, _, hallowed, _, hdenied, -⟩ := h
  exact ⟨hallowed, hdenied⟩

/-- Every managed denial stands in a valid configuration, up to case. -/
theorem exists_denied {managed : List Str} (hmanaged : constraints.deniedDomains = some managed)
    (h : validatePolicyAgainstConstraints crates mitm config constraints = .ok ()) {pattern : Str}
    (hpattern : pattern ∈ managed) :
    ∃ entry ∈ config.deniedDomains.getD [], toAsciiLowercase entry = toAsciiLowercase pattern := by
  have hdenied := (validate_domains h).2
  rw [hmanaged] at hdenied
  obtain ⟨_, -, hcheck⟩ := bind_eq_ok.mp hdenied
  have hmem : toAsciiLowercase pattern ∈ lowercaseSet (config.deniedDomains.getD []) := by
    have hrequired : toAsciiLowercase pattern ∈ lowercaseSet managed := mem_map_of_mem hpattern
    -- a fixed list is the same set, an expandable one misses no entry
    have hmissing (hempty : ((lowercaseSet managed).filter
        (· ∉ lowercaseSet (config.deniedDomains.getD []))).isEmpty) :
        toAsciiLowercase pattern ∈ lowercaseSet (config.deniedDomains.getD []) := by
      have := filter_eq_nil_iff.mp (isEmpty_iff.mp hempty) _ hrequired
      simpa using this
    cases hexpansion : constraints.denylistExpansionEnabled with
    | none =>
      rw [hexpansion] at hcheck
      exact hmissing (ensure_eq_ok.mp hcheck)
    | some expansion =>
      rw [hexpansion] at hcheck
      cases expansion with
      | true => exact hmissing (ensure_eq_ok.mp hcheck)
      | false =>
        have hsame := ensure_eq_ok.mp hcheck
        simp only [sameSet, Bool.and_eq_true, all_eq_true, decide_eq_true_eq] at hsame
        exact hsame.2 _ hrequired
  obtain ⟨entry, hentry, heq⟩ := mem_map.mp hmem
  exact ⟨entry, hentry, heq⟩

/-- The sets of a state are compiled from the lists of its configuration. -/
theorem buildConfigState_spec (h : buildConfigState crates mitm config constraints = .ok state) :
    state.config = config ∧ compileAllowlistGlobset crates (config.allowedDomains.getD []) = .ok state.allowSet ∧
      compileDenylistGlobset crates (config.deniedDomains.getD []) = .ok state.denySet := by
  unfold buildConfigState at h
  simp only [bind_eq_ok] at h
  obtain ⟨_, -, _, -, _, -, denySet, hdeny, allowSet, hallow, _, -, _, -, hstate⟩ := h
  obtain rfl := ok.inj hstate
  exact ⟨rfl, mapError_eq_ok.mp hallow, mapError_eq_ok.mp hdeny⟩

/-! ## Denials -/

/-- A host in normal form, matched by a set, with or without its scope. -/
theorem globsetMatches_mono {set set' : GlobSet}
    (h : ∀ host, set.isMatch crates host → set'.isMatch crates host) {host : Str}
    (hmatch : globsetMatchesHostOrUnscoped crates set host) :
    globsetMatchesHostOrUnscoped crates set' host := by
  simp only [globsetMatchesHostOrUnscoped, Bool.or_eq_true, Option.any_eq_true] at hmatch ⊢
  rcases hmatch with hm | ⟨ip, hip, hm⟩
  · exact .inl (h host hm)
  · exact .inr ⟨ip, hip, h ip hm⟩

theorem hostBlocked_of_denySet (lookupHost : Str → Nat → Option (List IpAddr)) {host : Str}
    (hhost : normalizeHost host ≠ []) (port : Nat)
    (hmatch : globsetMatchesHostOrUnscoped crates state.denySet (normalizeHost host)) :
    hostBlocked crates lookupHost state host port = .blocked .denied := by
  have hparse : Host.parse host = .ok ⟨normalizeHost host⟩ := by
    simp [Host.parse, hhost]
  simp [hostBlocked, hparse, hmatch]

/-- Managed denials bite: a spelling of a host whose normal form is not empty and is matched by the globs of
a managed denied pattern, with or without an IPv6 scope, is denied by every state that is built from a valid
configuration. -/
theorem hostBlocked_of_managedDenial {managed : List Str} (hmanaged : constraints.deniedDomains = some managed)
    (hvalid : validatePolicyAgainstConstraints crates mitm config constraints = .ok ())
    (hbuild : buildConfigState crates mitm config constraints = .ok state) {pattern : Str}
    (hpattern : pattern ∈ managed) {host : Str} (hhost : normalizeHost host ≠ [])
    (hmatch : globsetMatchesHostOrUnscoped crates ⟨patternGlobs pattern⟩ (normalizeHost host) = true)
    (lookupHost : Str → Nat → Option (List IpAddr)) (port : Nat) :
    hostBlocked crates lookupHost state host port = .blocked .denied := by
  obtain ⟨entry, hentry, hcase⟩ := exists_denied hmanaged hvalid hpattern
  obtain ⟨-, -, hdeny⟩ := buildConfigState_spec hbuild
  refine hostBlocked_of_denySet lookupHost hhost port (globsetMatches_mono ?_ hmatch)
  intro host hm
  obtain ⟨g, hg, hgm⟩ := List.any_eq_true.mp hm
  refine (isMatch_compile hdeny host).mpr ⟨entry, hentry, g, ?_, hgm⟩
  rw [patternGlobs_congr hcase]
  exact hg

end

/-! ## Spellings -/

def globMatch : Str → Str → Bool
  | [], s => s.isEmpty
  | c :: glob, s =>
    if c = '*' then s.tails.any (globMatch glob)
    else match s with
      | [] => false
      | d :: s => (c = '?' || c.toLower = d.toLower) && globMatch glob s

def plainCrates : Crates where
  globBuilds _ := true
  globSetBuilds _ := true
  globMatches := globMatch
  urlHostParse host := if host = [] ∨ ':' ∈ host then none else some (toAsciiLowercase host)

def noMitm : MitmOps Unit where
  validate _ := .ok ()
  compile _ := .ok ()
  newState _ := .ok ()

def denyConfig (denied allowed : List String) : NetworkProxyConfig Unit where
  domains := some (denied.map (fun pattern => ⟨pattern.toList, .deny⟩) ++
    allowed.map fun pattern => ⟨pattern.toList, .allow⟩)

def denyConstraints (denied : List String) : NetworkProxyConstraints where
  deniedDomains := some (denied.map String.toList)

/-- Case, a port and a trailing dot do not get around a denial, nor does an allow entry. -/
theorem hostBlocked_of_managedDenial_spelling : hostBlocked plainCrates (fun _ _ => none)
      ⟨denyConfig ["*.Example.COM"] ["api.example.com"], ⟨["api.example.com".toList]⟩,
        ⟨["?*.example.com".toList]⟩, denyConstraints ["*.example.com"]⟩
      "API.Example.com.:443".toList 443 = .blocked .denied :=
  @hostBlocked_of_managedDenial _ plainCrates noMitm (denyConfig ["*.Example.COM"] ["api.example.com"])
    (denyConstraints ["*.example.com"]) _ _ rfl (by decide +kernel) (by decide +kernel) _
    (List.mem_singleton.mpr rfl) _ (by decide +kernel) (by decide +kernel) _ _

/-- The empty host is matched by the empty pattern, but it is no host. -/
theorem hostBlocked_emptyHost :
    validatePolicyAgainstConstraints plainCrates noMitm (denyConfig [""] []) (denyConstraints [""]) = .ok () ∧
      buildConfigState plainCrates noMitm (denyConfig [""] []) (denyConstraints [""]) =
        .ok ⟨denyConfig [""] [], ⟨[]⟩, ⟨[[]]⟩, denyConstraints [""]⟩ ∧
      globsetMatchesHostOrUnscoped plainCrates ⟨patternGlobs []⟩ (normalizeHost ".".toList) = true ∧
      hostBlocked plainCrates (fun _ _ => none)
        ⟨denyConfig [""] [], ⟨[]⟩, ⟨[[]]⟩, denyConstraints [""]⟩ ".".toList 443 =
        .blocked .notAllowed := by
  decide +kernel

end Dcode.NetworkProxy
