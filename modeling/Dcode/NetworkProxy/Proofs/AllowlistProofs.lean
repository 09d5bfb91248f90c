import Dcode.Lib.DomainGlob
import Dcode.NetworkProxy.Proofs.DenylistProofs

/-!
# The managed allowlist

Whether an allow entry stays inside the managed ones is decided on what `url` reads of their domains, while
requests are matched against globs of what `normalize_host` leaves of them. Where the two readings agree the
check is sound; a port, which `url` rejects and `normalize_host` strips, makes every entry look alike.
-/

namespace Dcode.NetworkProxy

open Run Str DomainGlob List DomainPattern

/-! ## Plain patterns -/

def plainChar (c : Char) : Bool := c.isAlphanum || c == '-' || c == '.' || c == ':'

def Plain (s : Str) : Prop := ∀ c ∈ s, plainChar c

inductive PatternKind where
  | exact
  | subdomains
  | apex

namespace PatternKind

@[simp] def wildcard : PatternKind → Str
  | exact => []
  | subdomains => subdomainsPrefix
  | apex => apexPrefix

@[simp] def read : PatternKind → Str → DomainPattern
  | exact => .exact
  | subdomains => .subdomainsOnly
  | apex => .apexAndSubdomains

def globs : PatternKind → Str → List (Pattern Char)
  | exact, domain => [.lit domain]
  | subdomains, domain => [.under domain]
  | apex, domain => [.lit domain, .under domain]

end PatternKind

/-- A pattern of plain characters behind at most one wildcard prefix. -/
def PlainPattern (pattern : Str) : Prop :=
  ∃ (kind : PatternKind) (domain : Str), Plain domain ∧ pattern = kind.wildcard ++ domain

/-- What a pattern of plain characters matches, as documented by `globset`: a literal itself, `?` one character
and `*` any number of them, without regard to case. -/
structure PlainGlobs (crates : Crates) : Prop where
  literal : ∀ glob host : Str, Plain glob →
    (crates.globMatches glob host ↔ toAsciiLowercase host = toAsciiLowercase glob)
  subdomains : ∀ domain host : Str, Plain domain → (crates.globMatches (subdomainsGlob domain) host ↔
      Under '.' (toAsciiLowercase domain) (toAsciiLowercase host))

def domainPart (pattern : Str) : Str :=
  ((stripPrefix apexPrefix pattern).orElse fun _ => stripPrefix subdomainsPrefix pattern).getD pattern

def globPatterns (pattern : Str) : List (Pattern Char) :=
  match DomainPattern.parse (normalizePattern pattern) with
  | .exact domain => [.lit domain]
  | .subdomainsOnly domain => [.under domain]
  | .apexAndSubdomains domain => [.lit domain, .under domain]

/-! ## Plain texts -/

variable {c : Char}

theorem plainChar_bounds (h : plainChar c) : 45 ≤ c.toNat ∧ c.toNat ≤ 122 := by
  simp only [plainChar, Bool.or_eq_true, beq_iff_eq, Char.isAlphanum, Char.isAlpha, Char.isUpper,
    Char.isLower, Char.isDigit, decide_eq_true_eq, UInt32.le_iff_toNat_le, Bool.and_eq_true] at h
  have hval : c.val.toNat = c.toNat := rfl
  have hA : 'A'.val.toNat = 65 := rfl
  have hZ : 'Z'.val.toNat = 90 := rfl
  have ha : 'a'.val.toNat = 97 := rfl
  have hz : 'z'.val.toNat = 122 := rfl
  have h0 : '0'.val.toNat = 48 := rfl
  have h9 : '9'.val.toNat = 57 := rfl
  rcases h with ((h | rfl) | rfl) | rfl
  · omega
  all_goals decide

theorem plainChar_not_isWhitespace (h : plainChar c) : isWhitespace c = false := by
  obtain ⟨hlow, hhigh⟩ := plainChar_bounds h
  simp only [isWhitespace, Bool.or_eq_false_iff, Bool.and_eq_false_iff, beq_eq_false_iff_ne, decide_eq_false_iff_not]
  omega

theorem plainChar_toLower (h : plainChar c) : plainChar c.toLower := by
  simp only [plainChar, Bool.or_eq_true, beq_iff_eq, Char.isAlphanum] at h ⊢
  rcases h with ((h | rfl) | rfl) | rfl
  · rcases h with h | h
    · exact .inl (.inl (.inl (.inl (by rw [Char.isAlpha_toLower_eq_isAlpha, h]))))
    · have hupper : ¬ c.isUpper := by
        simp only [Char.isUpper, Char.isDigit, decide_eq_true_eq, UInt32.le_iff_toNat_le, Bool.and_eq_true] at h ⊢
        have hA : 'A'.val.toNat = 65 := rfl
        have h9 : '9'.val.toNat = 57 := rfl
        omega
      rw [Char.toLower_eq_of_not_isUpper hupper]
      exact .inl (.inl (.inl (.inr h)))
  · exact .inl (.inl (.inr rfl))
  · exact .inl (.inr rfl)
  · exact .inr rfl

variable {s : Str}

theorem plain_iff_all : Plain s ↔ s.all plainChar := all_eq_true.symm

theorem Plain.not_mem (h : Plain s) (hc : plainChar c = false) : c ∉ s := by
  intro hmem
  rw [h c hmem] at hc
  cases hc

theorem trim_eq_of_forall (h : ∀ c ∈ s, isWhitespace c = false) : trim s = s :=
  trim_eq_self (fun c hc => h c (mem_of_mem_head? hc)) fun c hc => h c (mem_of_getLast? hc)

theorem Plain.trim_eq (h : Plain s) : trim s = s := trim_eq_of_forall fun c hc => plainChar_not_isWhitespace (h c hc)

theorem Plain.toAsciiLowercase (h : Plain s) : Plain (toAsciiLowercase s) := by
  intro c hc
  obtain ⟨d, hd, rfl⟩ := mem_map.mp hc
  exact plainChar_toLower (h d hd)

/-! ## Hosts -/

structure PlainHost (host : Str) : Prop where
  plain : Plain host
  lower : toAsciiLowercase host = host
  noDot : trimEndMatches '.' host = host

theorem Plain.normalizeDns (h : Plain s) :
    normalizeDnsHostOrIpLiteral s = trimEndMatches '.' (Str.toAsciiLowercase s) := by
  have hplain : Plain (trimEndMatches '.' (Str.toAsciiLowercase s)) := fun c hc =>
    h.toAsciiLowercase c ((trimEndMatches_sublist _ _).subset hc)
  have hscoped : ∀ rest, scopedIpLiteral ('%' :: rest) (trimEndMatches '.' (Str.toAsciiLowercase s)) = none := by
    intro rest
    have hfind : Str.find ('%' :: rest) (trimEndMatches '.' (Str.toAsciiLowercase s)) = none := by
      rw [← Option.not_isSome_iff_eq_none]
      intro hsome
      obtain ⟨i, hi⟩ := Option.isSome_iff_exists.mp hsome
      have hmem : '%' ∈ (trimEndMatches '.' (Str.toAsciiLowercase s)).drop i :=
        (prefix_of_find hi).subset mem_cons_self
      exact hplain.not_mem (by decide) (mem_of_mem_drop hmem)
    simp [scopedIpLiteral, splitOnceStr, hfind]
  have h25 : "%25".toList = '%' :: ['2', '5'] := by simp
  have h1 : "%".toList = ['%'] := by simp
  rw [normalizeDnsHostOrIpLiteral, normalizeIpLiteral, h25, h1, hscoped, hscoped]
  split <;> rfl

theorem Plain.plainHost_normalizeDns (h : Plain s) : PlainHost (normalizeDnsHostOrIpLiteral s) := by
  rw [h.normalizeDns]
  refine ⟨fun c hc => h.toAsciiLowercase c ((trimEndMatches_sublist _ _).subset hc), ?_, ?_⟩
  · have hdot : ∀ c : Char, (c.toLower == '.') = (c == '.') := by
      intro c
      rw [Bool.eq_iff_iff, beq_iff_eq, beq_iff_eq]
      exact toLower_eq_iff rfl
    unfold trimEndMatches
    rw [← rdropWhile_toAsciiLowercase hdot, toAsciiLowercase_toAsciiLowercase]
  · exact rdropWhile_idempotent _ _

theorem Plain.plainHost (h : Plain s) : PlainHost (normalizeHost s) := by
  have hbracket : s.head? ≠ some '[' := by
    intro hhead
    exact h.not_mem (by decide) (mem_of_mem_head? hhead)
  rw [normalizeHost, h.trim_eq]
  rw [if_neg (fun hc => hbracket hc.1)]
  split
  · exact Plain.plainHost_normalizeDns fun c hc => h c ((takeWhile_sublist _).subset hc)
  · exact h.plainHost_normalizeDns

/-! ## Patterns -/

theorem stripPrefix_of_not_mem {p : Str} (hp : c ∈ p) (hs : c ∉ s) : stripPrefix p s = none := by
  rw [← Option.not_isSome_iff_eq_none]
  intro hsome
  obtain ⟨t, ht⟩ := Option.isSome_iff_exists.mp hsome
  rw [stripPrefix_eq_some.mp ht] at hs
  exact hs (mem_append_left _ hp)

theorem Plain.stripPrefix_eq_none (h : Plain s) : stripPrefix apexPrefix s = none ∧ stripPrefix subdomainsPrefix s = none := by
  have hstar : '*' ∉ s := h.not_mem (by decide)
  exact ⟨stripPrefix_of_not_mem (by simp [apexPrefix]) hstar, stripPrefix_of_not_mem (by simp [subdomainsPrefix]) hstar⟩

theorem stripPrefix_apex_subdomains (domain : Str) : stripPrefix apexPrefix (subdomainsPrefix ++ domain) = none :=
  stripPrefix_append_none (by simp [apexPrefix, subdomainsPrefix]) (by simp [apexPrefix, subdomainsPrefix]) domain

variable {domain : Str}

variable (kind : PatternKind)

theorem trim_wildcard (h : Plain domain) : trim (kind.wildcard ++ domain) = kind.wildcard ++ domain := by
  refine trim_eq_of_forall fun c hc => ?_
  rcases mem_append.mp hc with hc | hc
  · cases kind with
    | exact => cases hc
    | subdomains =>
      fin_cases hc <;> rfl
    | apex =>
      fin_cases hc <;> rfl
  · exact plainChar_not_isWhitespace (h c hc)

theorem normalizePattern_wildcard (h : Plain domain) :
    normalizePattern (kind.wildcard ++ domain) = kind.wildcard ++ normalizeHost domain := by
  have hne : kind.wildcard ++ domain ≠ "*".toList := by
    cases kind with
    | exact =>
      rintro heq
      exact h.not_mem (c := '*') (by decide) (by rw [show domain = "*".toList from heq]; simp)
    | subdomains => simp [subdomainsPrefix]
    | apex => simp [apexPrefix]
  rw [normalizePattern, trim_wildcard kind h, if_neg hne]
  cases kind with
  | exact =>
    simp [h.stripPrefix_eq_none]
  | subdomains =>
    simp [stripPrefix_apex_subdomains]
  | apex => simp

theorem domainPart_wildcard (h : Plain domain) : domainPart (kind.wildcard ++ domain) = domain := by
  cases kind with
  | exact => simp [domainPart, h.stripPrefix_eq_none]
  | subdomains => simp [domainPart, stripPrefix_apex_subdomains]
  | apex => simp [domainPart]

theorem parseForConstraints_wildcard (crates : Crates) (kind : PatternKind) (h : Plain domain) :
    parseForConstraints crates (kind.wildcard ++ domain) = kind.read (parseDomainForConstraints crates domain) := by
  rw [parseForConstraints, trim_wildcard kind h]
  cases kind with
  | exact =>
    simp only [PatternKind.wildcard, nil_append, h.stripPrefix_eq_none]
    split
    next hempty =>
      rw [isEmpty_iff.mp hempty]
      rfl
    · rfl
  | subdomains =>
    rw [if_neg (by simp [subdomainsPrefix])]
    simp [stripPrefix_apex_subdomains]
  | apex =>
    rw [if_neg (by simp [apexPrefix])]
    simp [PatternKind.read]

theorem parse_wildcard (h : Plain domain) : parse (kind.wildcard ++ domain) =
      if domain = [] then .exact [] else kind.read domain := by
  rw [parse, trim_wildcard kind h]
  cases kind with
  | exact =>
    simp [h.stripPrefix_eq_none]
  | subdomains =>
    simp [stripPrefix_apex_subdomains, parseDomain, h.trim_eq]
  | apex =>
    simp [parseDomain, h.trim_eq]

/-- The globs of a plain pattern: the literal of an empty domain, else those of its kind. -/
theorem globPatterns_wildcard (h : Plain domain) : globPatterns (kind.wildcard ++ domain) =
      if normalizeHost domain = [] then [.lit []] else kind.globs (normalizeHost domain) := by
  rw [globPatterns, normalizePattern_wildcard kind h, parse_wildcard kind h.plainHost.plain]
  split_ifs with hempty
  · rfl
  · cases kind <;> rfl

/-! ## Matching -/

theorem PatternKind.mem_globs {q : Pattern Char} (hq : q ∈ kind.globs domain) : q = .lit domain ∨ q = .under domain := by
  cases kind <;> simp_all [globs]

theorem plainHost_of_mem_globPatterns {pattern : Str} (h : PlainPattern pattern) {q : Pattern Char}
    (hq : q ∈ globPatterns pattern) : PlainHost q.letters := by
  obtain ⟨kind, domain, hdomain, rfl⟩ := h
  rw [globPatterns_wildcard kind hdomain] at hq
  split_ifs at hq with hempty
  · obtain rfl := mem_singleton.mp hq
    exact ⟨nofun, rfl, rfl⟩
  · have hletters : q.letters = normalizeHost domain := by
      rcases kind.mem_globs hq with rfl | rfl <;> rfl
    rw [hletters]
    exact hdomain.plainHost

def globText : Pattern Char → Str
  | .lit domain => domain
  | .under domain => subdomainsGlob domain

theorem patternGlobs_eq (pattern : Str) : patternGlobs pattern = (globPatterns pattern).map globText := by
  rw [patternGlobs, expandDomainPattern, globPatterns]
  cases parse (normalizePattern pattern) <;> rfl

variable {crates : Crates}

theorem globMatches_globText (hglobs : PlainGlobs crates) {q : Pattern Char} (hq : PlainHost q.letters) (host : Str) :
    crates.globMatches (globText q) host ↔ q.Matches '.' (toAsciiLowercase host) := by
  cases q with
  | lit domain =>
    have hlower : toAsciiLowercase domain = domain := hq.lower
    rw [globText, hglobs.literal domain host hq.plain, hlower]
    rfl
  | under domain =>
    have hlower : toAsciiLowercase domain = domain := hq.lower
    rw [globText, hglobs.subdomains domain host hq.plain, hlower]
    rfl

theorem isMatch_plain (hglobs : PlainGlobs crates) {patterns : List Str}
    (hplain : ∀ pattern ∈ patterns, PlainPattern pattern) {set : GlobSet}
    (hset : compileAllowlistGlobset crates patterns = .ok set) (host : Str) :
    set.isMatch crates host ↔ ∃ q ∈ patterns.flatMap globPatterns, q.Matches '.' (toAsciiLowercase host) := by
  rw [isMatch_compile hset]
  simp only [patternGlobs_eq, mem_map, mem_flatMap]
  constructor
  · rintro ⟨pattern, hpattern, g, ⟨q, hq, rfl⟩, hm⟩
    have hhost := plainHost_of_mem_globPatterns (hplain pattern hpattern) hq
    exact ⟨q, ⟨pattern, hpattern, hq⟩, (globMatches_globText hglobs hhost host).mp hm⟩
  · rintro ⟨q, ⟨pattern, hpattern, hq⟩, hm⟩
    have hhost := plainHost_of_mem_globPatterns (hplain pattern hpattern) hq
    exact ⟨pattern, hpattern, _, ⟨q, hq, rfl⟩, (globMatches_globText hglobs hhost host).mpr hm⟩

def CoveredBy (managed : List Str) (entry : Str) : Prop :=
  ∀ q ∈ globPatterns entry, ∃ p ∈ managed.flatMap globPatterns, p.Covers '.' q

variable {managed : List Str}

/-- One set is inside another exactly if each of its entries is covered. -/
theorem isMatch_subset_iff (hglobs : PlainGlobs crates) {allowed : List Str}
    (hmanaged : ∀ pattern ∈ managed, PlainPattern pattern) (hallowed : ∀ pattern ∈ allowed, PlainPattern pattern)
    {managedSet allowSet : GlobSet} (hmanagedSet : compileAllowlistGlobset crates managed = .ok managedSet)
    (hallowSet : compileAllowlistGlobset crates allowed = .ok allowSet) :
    (∀ host, allowSet.isMatch crates host → managedSet.isMatch crates host) ↔
      ∀ entry ∈ allowed, CoveredBy managed entry := by
  simp only [isMatch_plain hglobs hmanaged hmanagedSet, isMatch_plain hglobs hallowed hallowSet]
  constructor
  · intro h entry hentry q hq
    have hhost := plainHost_of_mem_globPatterns (hallowed entry hentry) hq
    have hlower : ∀ w : Str, (∀ a ∈ w, a.toLower = a) → toAsciiLowercase w = w :=
      fun w hw => (map_congr_left hw).trans (map_id w)
    refine (Pattern.forall_matches_iff (c := 'a') (by decide) (fun a => a.toLower = a) rfl rfl _ q ?_).mp ?_
    · exact map_inj_left.mp (hhost.lower.trans (map_id _).symm)
    · intro w hw hm
      obtain ⟨p, hp, hpm⟩ := h w ⟨q, mem_flatMap.mpr ⟨entry, hentry, hq⟩, by rwa [hlower w hw]⟩
      exact ⟨p, hp, by rwa [hlower w hw] at hpm⟩
  · rintro h host ⟨q, hq, hm⟩
    obtain ⟨entry, hentry, hq⟩ := mem_flatMap.mp hq
    obtain ⟨p, hp, hcovers⟩ := h entry hentry q hq
    exact ⟨p, hp, hcovers.matches hm⟩

/-! ## The check -/

/-- `url` reads a domain as `normalize_host` leaves it, and something is left of it. -/
def ReadAlike (crates : Crates) (pattern : Str) : Prop :=
  DomainPattern.parseDomainForConstraints crates (domainPart pattern) =
    normalizeHost (domainPart pattern) ∧ normalizeHost (domainPart pattern) ≠ []

def Allows (crates : Crates) (pattern entry : Str) : Prop :=
  (DomainPattern.parseForConstraints crates pattern).allows
    (DomainPattern.parseForConstraints crates entry)

/-- The check need not compare the entry as it is compiled: it is not read alike or starts with a dot, or a
managed pattern that is not read alike allows it. -/
def Misjudged (crates : Crates) (managed : List Str) (entry : Str) : Prop :=
  ¬ ReadAlike crates entry ∨ (normalizeHost (domainPart entry)).head? = some '.' ∨
    ∃ pattern ∈ managed, Allows crates pattern entry ∧ ¬ ReadAlike crates pattern

variable {kind : PatternKind}

theorem PlainHost.normalizeDomain {host : Str} (h : PlainHost host) : DomainPattern.normalizeDomain host = host := by
  rw [DomainPattern.normalizeDomain, h.noDot, h.lower]

variable {child parent : Str}

theorem endsUnder_iff : endsUnder child parent ↔ ∃ x, child = x ++ '.' :: parent := by
  rw [endsUnder, isSuffixOf_iff_suffix]
  exact exists_congr fun x => eq_comm

theorem under_of_eq (hdot : child.head? ≠ some '.') {x : Str} (h : child = x ++ '.' :: parent) : Under '.' parent child := by
  refine ⟨x, ?_, h⟩
  rintro rfl
  exact hdot (h ▸ rfl)

theorem isStrictSubdomain_under (hc : PlainHost child) (hp : PlainHost parent) (hdot : child.head? ≠ some '.')
    (h : isStrictSubdomain child parent) :
    Under '.' parent child := by
  simp only [isStrictSubdomain, hc.normalizeDomain, hp.normalizeDomain, Bool.and_eq_true, endsUnder_iff] at h
  obtain ⟨-, x, hx⟩ := h
  exact under_of_eq hdot hx

theorem isSubdomainOrEqual_iff (hc : PlainHost child) (hp : PlainHost parent) : isSubdomainOrEqual child parent ↔
      child = parent ∨ ∃ x, child = x ++ '.' :: parent := by
  simp only [isSubdomainOrEqual, hc.normalizeDomain, hp.normalizeDomain]
  split_ifs with heq
  · simp [heq]
  · rw [endsUnder_iff, or_iff_right heq]

/-- A pattern that allows another covers its globs, if the domains are compared as they are compiled. -/
theorem covers_of_allows {kind' : PatternKind} {domain' : Str} (hd : PlainHost domain) (hd' : PlainHost domain')
    (hdot : domain'.head? ≠ some '.') (h : (kind.read domain).allows (kind'.read domain')) :
    ∀ q ∈ kind'.globs domain', ∃ p ∈ kind.globs domain, p.Covers '.' q := by
  intro q hq
  cases kind with
  | exact =>
    cases kind' with
    | exact =>
      obtain rfl := mem_singleton.mp hq
      simp only [PatternKind.read, allows, domainEq, hd.normalizeDomain, hd'.normalizeDomain, decide_eq_true_eq] at h
      exact ⟨_, mem_singleton.mpr rfl, h⟩
    | subdomains | apex => cases h
  | subdomains =>
    refine ⟨.under domain, mem_singleton.mpr rfl, ?_⟩
    cases kind' with
    | exact =>
      obtain rfl := mem_singleton.mp hq
      exact isStrictSubdomain_under hd' hd hdot h
    | subdomains =>
      obtain rfl := mem_singleton.mp hq
      exact (isSubdomainOrEqual_iff hd' hd).mp h
    | apex =>
      have hstrict := isStrictSubdomain_under hd' hd hdot h
      rcases PatternKind.mem_globs _ hq with rfl | rfl
      · exact hstrict
      · obtain ⟨x, -, hx⟩ := hstrict
        exact .inr ⟨x, hx⟩
  | apex =>
    -- the literal needs the apex if the domains are equal, everything else is under it
    have hsub : isSubdomainOrEqual domain' domain := by
      cases kind' <;> exact h
    have hor := (isSubdomainOrEqual_iff hd' hd).mp hsub
    have hlit : ∃ p ∈ PatternKind.apex.globs domain, p.Covers '.' (.lit domain') := by
      rcases hor with rfl | ⟨x, hx⟩
      · exact ⟨.lit domain', mem_cons_self, rfl⟩
      · exact ⟨.under domain, mem_cons_of_mem _ (mem_singleton.mpr rfl), under_of_eq hdot hx⟩
    have hwild : ∃ p ∈ PatternKind.apex.globs domain, p.Covers '.' (.under domain') :=
      ⟨.under domain, mem_cons_of_mem _ (mem_singleton.mpr rfl), hor⟩
    rcases kind'.mem_globs hq with rfl | rfl
    · exact hlit
    · exact hwild

/-- A check between domains that are read alike is sound. -/
theorem coveredBy_of_allows {pattern entry : Str} (hpattern : pattern ∈ managed) (hplain : PlainPattern pattern)
    (hplain' : PlainPattern entry) (hread : ReadAlike crates pattern) (hread' : ReadAlike crates entry)
    (hdot : (normalizeHost (domainPart entry)).head? ≠ some '.') (hallows : Allows crates pattern entry) :
    CoveredBy managed entry := by
  obtain ⟨kind, domain, hdomain, rfl⟩ := hplain
  obtain ⟨kind', domain', hdomain', rfl⟩ := hplain'
  rw [ReadAlike, domainPart_wildcard kind hdomain] at hread
  rw [ReadAlike, domainPart_wildcard kind' hdomain'] at hread'
  rw [domainPart_wildcard kind' hdomain'] at hdot
  rw [Allows, parseForConstraints_wildcard crates kind hdomain, hread.1,
    parseForConstraints_wildcard crates kind' hdomain', hread'.1] at hallows
  intro q hq
  rw [globPatterns_wildcard kind' hdomain', if_neg hread'.2] at hq
  obtain ⟨p, hp, hcovers⟩ := covers_of_allows hdomain.plainHost hdomain'.plainHost hdot hallows q hq
  refine ⟨p, mem_flatMap.mpr ⟨_, hpattern, ?_⟩, hcovers⟩
  rw [globPatterns_wildcard kind hdomain, if_neg hread.2]
  exact hp

/-- Every allow entry of a valid configuration is allowed by a managed pattern. -/
theorem exists_allows {Hook : Type} {mitm : MitmOps Hook} {config : NetworkProxyConfig Hook}
    {constraints : NetworkProxyConstraints} (hmanaged : constraints.allowedDomains = some managed)
    (hexpansion : constraints.allowlistExpansionEnabled = none)
    (hvalid : validatePolicyAgainstConstraints crates mitm config constraints = .ok ()) {entry : Str}
    (hentry : entry ∈ config.allowedDomains.getD []) :
    ∃ pattern ∈ managed, Allows crates pattern entry := by
  have hallowed := (validate_domains hvalid).1
  rw [hmanaged, hexpansion] at hallowed
  obtain ⟨_, -, hcheck⟩ := bind_eq_ok.mp hallowed
  have hinvalid := isEmpty_iff.mp (ensure_eq_ok.mp hcheck)
  have hany := filter_eq_nil_iff.mp hinvalid entry hentry
  simpa [Allows] using hany

/-- The allow set of a valid configuration is inside the managed one exactly if each entry that the check can
misjudge is covered, glob by glob, by the managed entries. -/
theorem allowSet_subset_managed_iff {Hook : Type} {crates : Crates} (hglobs : PlainGlobs crates)
    {mitm : MitmOps Hook} {config : NetworkProxyConfig Hook} {constraints : NetworkProxyConstraints}
    {state : ConfigState Hook} {managed : List Str} {managedSet : GlobSet}
    (hmanaged : constraints.allowedDomains = some managed)
    (hexpansion : constraints.allowlistExpansionEnabled = none)
    (hvalid : validatePolicyAgainstConstraints crates mitm config constraints = .ok ())
    (hbuild : buildConfigState crates mitm config constraints = .ok state)
    (hmanagedSet : compileAllowlistGlobset crates managed = .ok managedSet)
    (hplainManaged : ∀ pattern ∈ managed, PlainPattern pattern)
    (hplain : ∀ entry ∈ config.allowedDomains.getD [], PlainPattern entry) :
    (∀ host, state.allowSet.isMatch crates host = true → managedSet.isMatch crates host = true) ↔
      ∀ entry ∈ config.allowedDomains.getD [], Misjudged crates managed entry → CoveredBy managed entry := by
  obtain ⟨-, hallow, -⟩ := buildConfigState_spec hbuild
  rw [isMatch_subset_iff hglobs hplainManaged hplain hmanagedSet hallow]
  refine forall₂_congr fun entry hentry => ?_
  constructor
  · intro h _
    exact h
  · intro h
    by_cases hmis : Misjudged crates managed entry
    · exact h hmis
    · simp only [Misjudged, not_or, not_not, not_exists, not_and] at hmis
      obtain ⟨hread, hdot, hpatterns⟩ := hmis
      obtain ⟨pattern, hpattern, hallows⟩ := exists_allows hmanaged hexpansion hvalid hentry
      exact coveredBy_of_allows hpattern (hplainManaged pattern hpattern) (hplain entry hentry)
        (hpatterns pattern hpattern hallows) hread hdot hallows

/-! ## Ports -/

theorem globMatch_literal {glob : Str} (hglob : Plain glob) (host : Str) :
    globMatch glob host ↔ toAsciiLowercase host = toAsciiLowercase glob := by
  induction glob generalizing host with
  | nil => simp [globMatch, toAsciiLowercase]
  | cons c glob ih =>
    have hstar : c ≠ '*' := by
      rintro rfl
      exact hglob.not_mem (c := '*') (by decide) mem_cons_self
    have hquestion : c ≠ '?' := by
      rintro rfl
      exact hglob.not_mem (c := '?') (by decide) mem_cons_self
    have htail := ih (fun d hd => hglob d (mem_cons_of_mem _ hd))
    cases host with
    | nil => simp [globMatch, hstar, toAsciiLowercase]
    | cons d host =>
      have hstep : globMatch (c :: glob) (d :: host) = (decide (c.toLower = d.toLower) && globMatch glob host) := by
        simp [globMatch, hstar, hquestion]
      rw [hstep, Bool.and_eq_true, decide_eq_true_eq, htail]
      simp only [toAsciiLowercase, map_cons, cons.injEq]
      exact and_congr_left' eq_comm

theorem plainGlobs_plainCrates : PlainGlobs plainCrates where
  literal glob host hglob := globMatch_literal hglob host
  subdomains domain host hdomain := by
    have hdot : Plain ('.' :: domain) := by
      intro c hc
      rcases mem_cons.mp hc with rfl | hc
      · rfl
      · exact hdomain c hc
    have hglob : subdomainsGlob domain = '?' :: '*' :: '.' :: domain := by simp [subdomainsGlob]
    have hmatch : ∀ d rest, globMatch (subdomainsGlob domain) (d :: rest) ↔
        ∃ u, u <:+ rest ∧ toAsciiLowercase u = '.' :: toAsciiLowercase domain := by
      intro d rest
      rw [hglob]
      simp only [globMatch, Char.reduceEq, if_false, if_true, decide_true, Bool.true_or, Bool.true_and,
        any_eq_true, mem_tails]
      exact exists_congr fun u => and_congr_right fun _ => globMatch_literal hdot u
    cases host with
    | nil =>
      refine iff_of_false (by simp [plainCrates, hglob, globMatch]) ?_
      rintro ⟨x, hx, h⟩
      simp [toAsciiLowercase] at h
    | cons d rest =>
      refine (hmatch d rest).trans ?_
      constructor
      · rintro ⟨u, ⟨y, rfl⟩, hu⟩
        refine ⟨toAsciiLowercase (d :: y), by simp [toAsciiLowercase], ?_⟩
        rw [← hu]
        simp [toAsciiLowercase]
      · rintro ⟨x, hx, h⟩
        obtain ⟨y, u, hyu, rfl, hu⟩ := map_eq_append_iff.mp h
        cases y with
        | nil => exact absurd rfl hx
        | cons d' y => exact ⟨u, ⟨y, (cons.inj hyu).2.symm⟩, hu⟩

def allowConfig (allowed : List String) : NetworkProxyConfig Unit where
  domains := some (allowed.map fun pattern => ⟨pattern.toList, .allow⟩)

def allowConstraints (allowed : List String) : NetworkProxyConstraints where
  allowedDomains := some (allowed.map String.toList)

def allowState (managed allowed globs : List String) : ConfigState Unit where
  config := allowConfig allowed
  allowSet := ⟨globs.map String.toList⟩
  denySet := ⟨[]⟩
  constraints := allowConstraints managed

/-- A subdomain of a managed apex is inside it. -/
theorem allowSet_subset_managed_subdomain :
    (allowState ["**.example.com"] ["api.example.com"] ["api.example.com"]).allowSet.isMatch plainCrates
      "api.example.com".toList = true ∧
    GlobSet.isMatch plainCrates ⟨["example.com".toList, "?*.example.com".toList]⟩ "api.example.com".toList = true := by
  have hmatch : (allowState ["**.example.com"] ["api.example.com"] ["api.example.com"]).allowSet.isMatch plainCrates
      "api.example.com".toList := by decide +kernel
  have hallowed : (allowConfig ["api.example.com"]).allowedDomains.getD [] =
      ["api.example.com".toList] := by decide +kernel
  refine ⟨hmatch, (@allowSet_subset_managed_iff _ plainCrates plainGlobs_plainCrates noMitm
    (allowConfig ["api.example.com"]) (allowConstraints ["**.example.com"]) _ ["**.example.com".toList] _
    rfl rfl (by decide +kernel) (by decide +kernel) (by decide +kernel) ?_ ?_).mpr ?_ _ hmatch⟩
  · intro pattern hpattern
    obtain rfl := List.mem_singleton.mp hpattern
    exact ⟨.apex, "example.com".toList, plain_iff_all.mpr (by decide +kernel), by decide +kernel⟩
  · intro entry hentry
    obtain rfl := List.mem_singleton.mp hentry
    exact ⟨.exact, _, plain_iff_all.mpr (by decide +kernel), rfl⟩
  · have hglobs : globPatterns "api.example.com".toList = [.lit "api.example.com".toList] := by
      decide +kernel
    have hmanaged : ["**.example.com".toList].flatMap globPatterns =
        [.lit "example.com".toList, .under "example.com".toList] := by decide +kernel
    intro entry hentry _ q hq
    obtain rfl := List.mem_singleton.mp hentry
    obtain rfl := List.mem_singleton.mp hq
    exact ⟨_, mem_cons_of_mem _ (List.mem_singleton.mpr rfl), "api".toList, by decide +kernel, by decide +kernel⟩

/-- With ports, an entry for any host passes for the managed one. -/
theorem allowSet_port : validatePolicyAgainstConstraints plainCrates noMitm (allowConfig ["evil.com:443"])
        (allowConstraints ["good.com:443"]) = .ok () ∧
      buildConfigState plainCrates noMitm (allowConfig ["evil.com:443"]) (allowConstraints ["good.com:443"]) =
        .ok (allowState ["good.com:443"] ["evil.com:443"] ["evil.com"]) ∧
      compileAllowlistGlobset plainCrates ["good.com:443".toList] = .ok ⟨["good.com".toList]⟩ ∧
      (allowState ["good.com:443"] ["evil.com:443"] ["evil.com"]).allowSet.isMatch plainCrates
        "evil.com".toList = true ∧
      GlobSet.isMatch plainCrates ⟨["good.com".toList]⟩ "evil.com".toList = false := by
  decide +kernel

end Dcode.NetworkProxy
