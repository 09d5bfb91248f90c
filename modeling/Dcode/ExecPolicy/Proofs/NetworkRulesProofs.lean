import Dcode.ExecPolicy.NetworkRules
import Dcode.Lib.AsciiCase

/-!
# The domains and the hosts of network rules

The last rule for a host decides which list it is in, and where. Normalising a host takes brackets, a port and dots
off once, in this order, so that the result may have more of them.
-/

namespace Dcode.ExecPolicy

open List Str Except

open Str (trim splitOnce stripPrefix toAsciiLowercase isWhitespace trimEndMatches)

/-! ## Compiled domains -/

/-- The decision of the last rule for a host that is not to prompt. -/
def lastDecision (rules : List NetworkRule) (host : Str) : Option Decision :=
  ((rules.filter fun rule => rule.host = host ∧ rule.decision ≠ .prompt).getLast?).map (·.decision)

/-- How many rules stand behind the last one for a host with a decision. -/
def rulesBehind (decision : Decision) (rules : List NetworkRule) (host : Str) : Nat :=
  rules.reverse.findIdx fun rule => rule.host = host ∧ rule.decision = decision

def compileFor (decision : Decision) (entries : List Str) (rule : NetworkRule) : List Str :=
  if rule.decision = .prompt then entries
  else if rule.decision = decision then Policy.upsertDomain entries rule.host
  else entries.filter (· ≠ rule.host)

theorem compiledNetworkDomains_eq (policy : Policy) : policy.compiledNetworkDomains =
    (policy.networkRules.foldl (compileFor .allow) [], policy.networkRules.foldl (compileFor .forbidden) []) := by
  unfold Policy.compiledNetworkDomains
  induction policy.networkRules using reverseRecOn with
  | nil => rfl
  | append_singleton rules rule ih =>
    rw [foldl_concat, ih]
    cases h : rule.decision <;> simp [Policy.compileNetworkRule, compileFor, h]

theorem lastDecision_concat (rules : List NetworkRule) (rule : NetworkRule) (host : Str) :
    lastDecision (rules ++ [rule]) host =
      if rule.host = host ∧ rule.decision ≠ .prompt then some rule.decision else lastDecision rules host := by
  unfold lastDecision
  split
  next h => simp [h]
  next h => simp [h]

theorem rulesBehind_concat (decision : Decision) (rules : List NetworkRule) (rule : NetworkRule) (host : Str) :
    rulesBehind decision (rules ++ [rule]) host =
      if rule.host = host ∧ rule.decision = decision then 0 else rulesBehind decision rules host + 1 := by
  simp [rulesBehind, findIdx_cons]

/-- The list of a decision has the hosts whose last rule has it, in the order of these rules. -/
theorem compileFor_spec {decision : Decision} (hd : decision ≠ .prompt) (rules : List NetworkRule) :
    (∀ host, host ∈ rules.foldl (compileFor decision) [] ↔ lastDecision rules host = some decision) ∧
    (rules.foldl (compileFor decision) []).Pairwise fun a b =>
      rulesBehind decision rules b < rulesBehind decision rules a := by
  induction rules using reverseRecOn with
  | nil => simp [lastDecision]
  | append_singleton rules rule ih =>
    obtain ⟨hmem, hpair⟩ := ih
    -- a rule for another host only moves the entries further from the end
    have hother : ∀ entries : List Str, entries.Sublist (rules.foldl (compileFor decision) []) →
        (rule.decision = decision → ∀ host ∈ entries, rule.host ≠ host) →
        entries.Pairwise fun a b =>
          rulesBehind decision (rules ++ [rule]) b < rulesBehind decision (rules ++ [rule]) a := by
      intro entries hsub hne
      refine (hpair.sublist hsub).imp_of_mem fun {a b} ha hb hlt => ?_
      rw [rulesBehind_concat, rulesBehind_concat, if_neg fun h => hne h.2 b hb h.1, if_neg fun h => hne h.2 a ha h.1]
      omega
    rw [foldl_concat]
    simp only [lastDecision_concat]
    by_cases hprompt : rule.decision = .prompt
    · rw [compileFor, if_pos hprompt]
      refine ⟨fun host => by simp [hprompt, hmem], hother _ (Sublist.refl _) fun h => ?_⟩
      exact absurd (h.symm.trans hprompt) hd
    · rw [compileFor, if_neg hprompt]
      by_cases hdec : rule.decision = decision
      · rw [if_pos hdec, Policy.upsertDomain]
        refine ⟨fun host => ?_, pairwise_append.mpr ⟨hother _ filter_sublist fun _ host hh => ?_,
          pairwise_singleton _ _, fun a ha b hb => ?_⟩⟩
        · by_cases hhost : rule.host = host
          · simp [hhost, hdec, hd]
          · simp [hhost, hmem, Ne.symm hhost]
        · rintro rfl
          simp at hh
        · have hne : ¬ (rule.host = a ∧ rule.decision = decision) := by
            rintro ⟨rfl, -⟩
            simp at ha
          rw [rulesBehind_concat, rulesBehind_concat, if_pos ⟨(mem_singleton.mp hb).symm, hdec⟩, if_neg hne]
          omega
      · rw [if_neg hdec]
        refine ⟨fun host => ?_, hother _ filter_sublist fun h => absurd h hdec⟩
        by_cases hhost : rule.host = host
        · simp [hhost, hdec, hprompt]
        · simp [hhost, hmem, Ne.symm hhost]

/-- The compiled lists have no host twice and none in common. A host is in the one of its last decision, and each
list is in the order of the last rules with its decision. -/
theorem compiledNetworkDomains_spec (policy : Policy) :
    policy.compiledNetworkDomains.1.Nodup ∧ policy.compiledNetworkDomains.2.Nodup ∧
    policy.compiledNetworkDomains.1.Disjoint policy.compiledNetworkDomains.2 ∧
    (∀ host, (host ∈ policy.compiledNetworkDomains.1 ↔ lastDecision policy.networkRules host = some .allow) ∧
      (host ∈ policy.compiledNetworkDomains.2 ↔ lastDecision policy.networkRules host = some .forbidden)) ∧
    (policy.compiledNetworkDomains.1.Pairwise fun a b =>
      rulesBehind .allow policy.networkRules b < rulesBehind .allow policy.networkRules a) ∧
    policy.compiledNetworkDomains.2.Pairwise fun a b =>
      rulesBehind .forbidden policy.networkRules b < rulesBehind .forbidden policy.networkRules a := by
  obtain ⟨hallow, hallowed⟩ := @compileFor_spec .allow (by decide) policy.networkRules
  obtain ⟨hforbid, hdenied⟩ := @compileFor_spec .forbidden (by decide) policy.networkRules
  have hne : ∀ {a b : Str} {f : Str → Nat}, f b < f a → a ≠ b := by
    rintro a b f hlt rfl
    exact Nat.lt_irrefl _ hlt
  rw [compiledNetworkDomains_eq]
  refine ⟨hallowed.imp hne, hdenied.imp hne, fun host ha hd => ?_, fun host => ⟨hallow host, hforbid host⟩, hallowed,
    hdenied⟩
  have heq := ((hallow host).mp ha).symm.trans ((hforbid host).mp hd)
  cases heq

/-! ## Hosts -/

/-- One colon, with something before it and a port behind it. -/
def HasPort (host : Str) : Prop :=
  ∃ candidate port, host = candidate ++ ':' :: port ∧ ':' ∉ candidate ∧ candidate ≠ [] ∧ isPort port

/-- Normalising takes no bracket, dot or port off the host. -/
def IsSettled (host : Str) : Prop := host.head? ≠ some '[' ∧ host.getLast? ≠ some '.' ∧ ¬ HasPort host

/-- What every normalised host passes. -/
structure IsChecked (host : Str) : Prop where
  ne_nil : host ≠ []
  lower : toAsciiLowercase host = host
  visible : ∀ c ∈ host, isWhitespace c = false
  plain : ∀ c ∈ host, c ≠ '/' ∧ c ≠ '?' ∧ c ≠ '#' ∧ c ≠ '*'

theorem splitOnce_eq_some {c : Char} {s before after : Str} :
    splitOnce c s = some (before, after) ↔ s = before ++ c :: after ∧ c ∉ before := by
  have happend : ∀ {t u : Str}, c ∉ t → splitOnce c (t ++ c :: u) = some (t, u) := by
    intro t u ht
    have hall : ∀ x ∈ t, decide (x ≠ c) := fun x hx => decide_eq_true (ne_of_mem_of_not_mem hx ht)
    rw [splitOnce, takeWhile_append_of_pos hall, dropWhile_append_of_pos hall]
    simp
  constructor
  · intro h
    have hmem : c ∈ s := by
      by_contra hno
      simp [splitOnce, hno] at h
    obtain ⟨t, u, rfl, ht⟩ := eq_append_cons_of_mem hmem
    obtain ⟨rfl, rfl⟩ := Prod.mk.inj (Option.some.inj ((happend ht).symm.trans h))
    exact ⟨rfl, ht⟩
  · rintro ⟨rfl, ht⟩
    exact happend ht

variable {host : Str}

theorem hasPort_iff : HasPort host ↔
    ∃ candidate port, (if host.count ':' = 1 then splitOnce ':' host else none) = some (candidate, port) ∧
      (!candidate.isEmpty && isPort port) := by
  constructor
  · rintro ⟨candidate, port, rfl, hno, hne, hport⟩
    have hdigits : ':' ∉ port := by
      intro hmem
      have hdigit := all_eq_true.mp (Bool.and_eq_true_iff.mp hport).2 ':' hmem
      cases hdigit
    have hcount : (candidate ++ ':' :: port).count ':' = 1 := by
      simp [count_eq_zero_of_not_mem hno, count_eq_zero_of_not_mem hdigits]
    exact ⟨candidate, port, by rw [if_pos hcount]; exact splitOnce_eq_some.mpr ⟨rfl, hno⟩, by simp [hne, hport]⟩
  · rintro ⟨candidate, port, h, hcond⟩
    split at h
    · obtain ⟨rfl, hno⟩ := splitOnce_eq_some.mp h
      obtain ⟨hne, hport⟩ := Bool.and_eq_true_iff.mp hcond
      exact ⟨candidate, port, rfl, hno, by simpa using hne, hport⟩
    · cases h

/-- Where the host stands in a trimmed text: in brackets, before a port, or it is the whole text. -/
inductive HostText (s part : Str) : Prop where
  | inBrackets {rest : Str} (hs : s = '[' :: (part ++ ']' :: rest)) (hpart : ']' ∉ part)
  | beforePort {port : Str} (hs : s = part ++ ':' :: port) (hopen : s.head? ≠ some '[') (hpart : ':' ∉ part)
      (hne : part ≠ []) (hport : isPort port)
  | whole (hs : part = s) (hopen : s.head? ≠ some '[') (hport : ¬ HasPort s)

namespace HostText

variable {s part part' : Str}

theorem subset (h : HostText s part) : part ⊆ s := by
  intro c hc
  cases h with
  | inBrackets hs _ => simp [hs, hc]
  | beforePort hs _ _ _ _ => simp [hs, hc]
  | whole hs _ _ => exact hs ▸ hc

theorem eq_self (h : HostText s part) (hlen : s.length ≤ part.length) :
    part = s ∧ s.head? ≠ some '[' ∧ ¬ HasPort s := by
  cases h with
  | inBrackets hs _ => simp [hs] at hlen
  | beforePort hs _ _ _ _ => simp [hs] at hlen
  | whole hs hopen hport => exact ⟨hs, hopen, hport⟩

theorem unique (h : HostText s part) (h' : HostText s part') : part = part' := by
  cases h with
  | @inBrackets rest hs hpart =>
    cases h' with
    | @inBrackets rest' hs' hpart' =>
      have heq := (cons.inj (hs.symm.trans hs')).2
      have hsplit := (splitOnce_eq_some.mpr ⟨rfl, hpart⟩).symm.trans (splitOnce_eq_some.mpr ⟨heq, hpart'⟩)
      exact (Prod.mk.inj (Option.some.inj hsplit)).1
    | beforePort _ hopen _ _ _ | whole _ hopen _ => exact absurd (by rw [hs]; rfl) hopen
  | @beforePort port hs hopen hpart hne hport =>
    cases h' with
    | inBrackets hs' _ => exact absurd (by rw [hs']; rfl) hopen
    | beforePort hs' _ hpart' _ _ =>
      have hsplit := (splitOnce_eq_some.mpr ⟨hs, hpart⟩).symm.trans (splitOnce_eq_some.mpr ⟨hs', hpart'⟩)
      exact (Prod.mk.inj (Option.some.inj hsplit)).1
    | whole _ _ hno => exact absurd ⟨part, port, hs, hpart, hne, hport⟩ hno
  | whole hs hopen hno =>
    cases h' with
    | inBrackets hs' _ => exact absurd (by rw [hs']; rfl) hopen
    | beforePort hs' _ hpart' hne hport => exact absurd ⟨part', _, hs', hpart', hne, hport⟩ hno
    | whole hs' _ _ => rw [hs, hs']

end HostText

theorem hostPart_spec {raw part : Str} (h : hostPart raw host = .ok part) : HostText host part := by
  unfold hostPart at h
  split at h
  next stripped hs =>
    have hhost := stripPrefix_eq_some.mp hs
    split at h
    · cases h
    next inside rest hsplit =>
      obtain ⟨rfl, hno⟩ := splitOnce_eq_some.mp hsplit
      split at h
      · cases h
      obtain rfl := ok.inj h
      exact .inBrackets hhost hno
  next hs =>
    have hhead : host.head? ≠ some '[' := by
      intro hhead
      obtain ⟨rest, rfl⟩ := head?_eq_some_iff.mp hhead
      cases hs
    split at h
    next candidate port hsplit =>
      by_cases hcond : (!candidate.isEmpty && isPort port)
      · rw [if_pos hcond] at h
        obtain rfl := ok.inj h
        obtain ⟨hne, hport⟩ := Bool.and_eq_true_iff.mp hcond
        split at hsplit
        · obtain ⟨hhost, hno⟩ := splitOnce_eq_some.mp hsplit
          exact .beforePort hhost hhead hno (by simpa using hne) hport
        · cases hsplit
      · rw [if_neg hcond] at h
        refine .whole (ok.inj h).symm hhead fun hport => ?_
        obtain ⟨c, p, hsplit', hcond'⟩ := hasPort_iff.mp hport
        obtain ⟨rfl, rfl⟩ := Prod.mk.inj (Option.some.inj (hsplit.symm.trans hsplit'))
        exact hcond hcond'
    next hsplit =>
      refine .whole (ok.inj h).symm hhead fun hport => ?_
      obtain ⟨c, p, hsplit', -⟩ := hasPort_iff.mp hport
      rw [hsplit] at hsplit'
      cases hsplit'

theorem hostPart_of_settled (h : IsSettled host) (raw : Str) : hostPart raw host = .ok host := by
  have hstrip : stripPrefix ['['] host = none := by
    refine Option.eq_none_iff_forall_ne_some.mpr fun rest hrest => h.1 ?_
    rw [stripPrefix_eq_some.mp hrest]
    rfl
  unfold hostPart
  rw [hstrip]
  dsimp only
  split
  next candidate port hsplit =>
    rw [if_neg fun hcond => h.2.2 (hasPort_iff.mpr ⟨_, _, hsplit, hcond⟩)]
  next => rfl

/-- A host without its trailing dots and the blanks around it. -/
def bareHost (part : Str) : Str := trim (trimEndMatches '.' part)

theorem finishHost_spec {normalized : Str} (h : finishHost host = .ok normalized) :
    normalized = toAsciiLowercase (bareHost host) ∧ normalized ≠ [] ∧ '*' ∉ normalized ∧
      ∀ c ∈ normalized, isWhitespace c = false := by
  simp only [finishHost] at h
  split at h
  · cases h
  next hne =>
    split at h
    · cases h
    next hstar =>
      split at h
      · cases h
      next hws =>
        obtain rfl := ok.inj h
        exact ⟨rfl, by simpa using hne, hstar, by simpa using hws⟩

theorem bareHost_subset (part : Str) : bareHost part ⊆ part :=
  ((trim_sublist _).trans (trimEndMatches_sublist _ _)).subset

theorem normalize_spec {raw : Str} (h : normalizeNetworkRuleHost raw = .ok host) :
    ∃ part, HostText (trim raw) part ∧ host = toAsciiLowercase (bareHost part) ∧ IsChecked host := by
  unfold normalizeNetworkRuleHost at h
  dsimp only at h
  split at h
  · cases h
  split at h
  · cases h
  next hplain =>
    cases hpart : hostPart raw (trim raw) with
    | error e =>
      rw [hpart] at h
      cases h
    | ok part =>
    rw [hpart] at h
    have htext := hostPart_spec hpart
    obtain ⟨rfl, hne, hstar, hvisible⟩ := finishHost_spec h
    -- what is no letter comes from the text
    have hmem : ∀ c : Char, c.isAlpha = false → c ∈ toAsciiLowercase (bareHost part) → c ∈ trim raw :=
      fun c hc hmem => htext.subset (bareHost_subset _ ((mem_toAsciiLowercase hc).mp hmem))
    simp only [Bool.or_eq_true, decide_eq_true_eq, not_or] at hplain
    refine ⟨part, htext, rfl, hne, toAsciiLowercase_toAsciiLowercase _, hvisible, fun c hc => ⟨?_, ?_, ?_, ?_⟩⟩
    · rintro rfl; exact hplain.1.1.2 (hmem _ (by decide) hc)
    · rintro rfl; exact hplain.1.2 (hmem _ (by decide) hc)
    · rintro rfl; exact hplain.2 (hmem _ (by decide) hc)
    · rintro rfl; exact hstar hc

theorem IsChecked.trim_eq (h : IsChecked host) : trim host = host :=
  trim_eq_self (fun c hc => h.visible c (mem_of_head? hc)) fun c hc => h.visible c (mem_of_getLast? hc)

/-- The checks before brackets and ports are passed again. -/
theorem IsChecked.normalize_eq (h : IsChecked host) :
    normalizeNetworkRuleHost host = hostPart host host >>= finishHost := by
  have hno : ∀ c : Char, c = '/' ∨ c = '?' ∨ c = '#' → c ∉ host := by
    intro c hc hmem
    obtain ⟨h1, h2, h3, -⟩ := h.plain c hmem
    rcases hc with hc | hc | hc <;> contradiction
  have hfind : Str.find "://".toList host = none := by
    refine Option.eq_none_iff_forall_ne_some.mpr fun i hi => hno '/' (.inl rfl) ?_
    exact mem_of_mem_drop ((prefix_of_find hi).subset (by decide))
  have hplain : ¬ ((Str.find "://".toList host).isSome || '/' ∈ host || '?' ∈ host || '#' ∈ host) := by
    rw [hfind]
    simp only [Option.isSome_none, Bool.false_or, Bool.or_eq_true, decide_eq_true_eq, not_or]
    exact ⟨⟨hno _ (.inl rfl), hno _ (.inr (.inl rfl))⟩, hno _ (.inr (.inr rfl))⟩
  unfold normalizeNetworkRuleHost
  rw [h.trim_eq]
  rw [if_neg (by simpa using h.ne_nil), if_neg hplain]

theorem IsChecked.finishHost_eq (h : IsChecked host) (hdot : host.getLast? ≠ some '.') :
    finishHost host = .ok host := by
  have htrim : trimEndMatches '.' host = host := by
    refine rdropWhile_eq_self_iff.mpr fun hne => ?_
    intro hlast
    exact hdot (by rw [getLast?_eq_some_getLast hne, of_decide_eq_true hlast])
  have hstar : '*' ∉ host := fun hmem => (h.plain _ hmem).2.2.2 rfl
  have hvisible : ¬ host.any isWhitespace := by simpa using h.visible
  unfold finishHost
  rw [htrim, h.trim_eq, h.lower]
  rw [if_neg (by simpa using h.ne_nil), if_neg hstar, if_neg hvisible]

/-- A result of normalising is its own normal form exactly if normalising takes nothing more off it. -/
theorem IsChecked.normalize_self_iff (h : IsChecked host) :
    normalizeNetworkRuleHost host = .ok host ↔ IsSettled host := by
  rw [h.normalize_eq]
  constructor
  · intro hok
    cases hpart : hostPart host host with
    | error e =>
      rw [hpart] at hok
      cases hok
    | ok part =>
      rw [hpart] at hok
      have heq := (finishHost_spec hok).1
      have hlen : host.length ≤ (trimEndMatches '.' part).length := by
        conv_lhs => rw [heq, toAsciiLowercase, length_map]
        exact (trim_sublist _).length_le
      have hshort := (trimEndMatches_sublist '.' part).length_le
      obtain ⟨rfl, hhead, hport⟩ := (hostPart_spec hpart).eq_self (hlen.trans hshort)
      refine ⟨hhead, fun hdot => ?_, hport⟩
      obtain ⟨front, rfl⟩ := getLast?_eq_some_iff.mp hdot
      rw [trimEndMatches, rdropWhile_concat_pos _ _ _ (by decide)] at hlen
      have hfront : (rdropWhile (· == '.') front).length ≤ front.length := (trimEndMatches_sublist '.' front).length_le
      rw [length_append, length_singleton] at hlen
      omega
  · intro hsettled
    rw [hostPart_of_settled hsettled]
    exact h.finishHost_eq hsettled.2.1

/-! ## Hosts that one normalisation does not settle -/

/-- Blanks, with dots behind them. -/
structure IsTail (blanks dots : Str) : Prop where
  blank : ∀ c ∈ blanks, isWhitespace c
  dot : ∀ c ∈ dots, c = '.'

/-- The trimmed texts of which one normalisation leaves more to be taken off: `a:80.`, `[a:80]`, `[[a]` and `a. .`. -/
inductive NeedsAgain (s : Str) : Prop where
  | dotBehindPort {host blanks dots : Str} (hs : s = host ++ (blanks ++ dots)) (hopen : s.head? ≠ some '[')
      (hport : HasPort host) (htail : IsTail blanks dots) (hdots : dots ≠ [])
  | portInBrackets {lead host blanks dots rest : Str}
      (hs : s = '[' :: (lead ++ (host ++ (blanks ++ dots)) ++ ']' :: rest))
      (hlead : ∀ c ∈ lead, isWhitespace c) (hvisible : ∀ c ∈ host, isWhitespace c = false ∧ c ≠ ']')
      (hport : HasPort host) (htail : IsTail blanks dots)
  | bracketInBrackets {lead inside rest : Str} (hs : s = '[' :: (lead ++ '[' :: inside ++ ']' :: rest))
      (hlead : ∀ c ∈ lead, isWhitespace c) (hinside : ']' ∉ inside)
  | dotBeforeBlanks {part front blanks dots : Str} (hpart : HostText s part)
      (hs : part = front ++ '.' :: (blanks ++ dots)) (htail : IsTail blanks dots) (hblanks : blanks ≠ [])

section Bare

variable {front blanks dots : Str}

/-- Every host is what is kept of it, with blanks around that and dots at the end. -/
theorem exists_bareHost (part : Str) : ∃ lead blanks dots, part = lead ++ (bareHost part ++ (blanks ++ dots)) ∧
    (∀ c ∈ lead, isWhitespace c) ∧ IsTail blanks dots ∧ ((bareHost part).getLast? = some '.' → blanks ≠ []) := by
  obtain ⟨dots, hpart, hdots⟩ := exists_rdropWhile (· == '.') part
  obtain ⟨blanks, hkept, hblanks⟩ := exists_rdropWhile isWhitespace (trimStart (trimEndMatches '.' part))
  have hlead : trimEndMatches '.' part =
      (trimEndMatches '.' part).takeWhile isWhitespace ++ (bareHost part ++ blanks) := by
    conv_lhs => rw [← takeWhile_append_dropWhile (p := isWhitespace) (l := trimEndMatches '.' part)]
    rw [bareHost, trim, trimEnd, ← hkept, trimStart]
  refine ⟨(trimEndMatches '.' part).takeWhile isWhitespace, blanks, dots, ?_,
    fun c hc => mem_takeWhile_imp hc, ⟨hblanks, fun c hc => eq_of_beq (hdots c hc)⟩, ?_⟩
  · rw [← append_assoc, ← append_assoc, append_assoc _ _ blanks, ← hlead]
    exact hpart
  · rintro hlast rfl
    rw [append_nil] at hlead
    have hne : trimEndMatches '.' part ≠ [] := by
      intro hnil
      rw [bareHost, hnil] at hlast
      cases hlast
    refine rdropWhile_last_not (· == '.') part hne ?_
    have hend : (trimEndMatches '.' part).getLast? = some '.' := by
      rw [hlead, getLast?_append, hlast]
      rfl
    rw [getLast?_eq_some_getLast hne] at hend
    exact beq_iff_eq.mpr (Option.some.inj hend)

theorem IsTail.trimEndMatches_eq (h : IsTail blanks dots) (hfront : front.getLast? = some '.' → blanks ≠ []) :
    trimEndMatches '.' (front ++ (blanks ++ dots)) = front ++ blanks := by
  rw [trimEndMatches, ← append_assoc, rdropWhile_append_of_all fun c hc => beq_iff_eq.mpr (h.dot c hc)]
  refine rdropWhile_eq_self_iff.mpr fun hne hdot => ?_
  have hend := getLast?_eq_some_getLast hne
  rw [eq_of_beq hdot] at hend
  cases blanks using reverseRecOn with
  | nil =>
    rw [append_nil] at hend
    exact hfront hend rfl
  | append_singleton blanks c =>
    rw [← append_assoc, getLast?_concat] at hend
    have hblank := h.blank c (by simp)
    rw [Option.some.inj hend] at hblank
    cases hblank

end Bare

theorem HasPort.getLast? (h : HasPort host) : ∃ d : Char, host.getLast? = some d ∧ d.isDigit := by
  obtain ⟨candidate, port, rfl, -, -, hport⟩ := h
  obtain ⟨hne, hdigits⟩ := Bool.and_eq_true_iff.mp hport
  have hne : port ≠ [] := by simpa using hne
  refine ⟨port.getLast hne, ?_, all_eq_true.mp hdigits _ (getLast_mem hne)⟩
  rw [getLast?_append, getLast?_cons, getLast?_eq_some_getLast hne]
  rfl

theorem not_isAlpha_of_isDigit {c : Char} (h : c.isDigit) : c.isAlpha = false := by
  simp only [Char.isDigit, Char.isAlpha, Char.isUpper, Char.isLower, Bool.and_eq_true, decide_eq_true_eq,
    Bool.or_eq_false_iff, Bool.and_eq_false_iff, decide_eq_false_iff_not, UInt32.le_iff_toNat_le] at *
  have hhigh : c.val.toNat ≤ 57 := h.2
  refine ⟨fun hupper => ?_, .inl fun hlower => ?_⟩
  · exact absurd (hupper.1.trans hhigh) (by decide)
  · exact absurd (hlower.trans hhigh) (by decide)

theorem hasPort_toAsciiLowercase {s : Str} : HasPort (toAsciiLowercase s) ↔ HasPort s := by
  have hport : ∀ {port : Str}, isPort port → ∀ {t : Str}, toAsciiLowercase t = port ↔ t = port := by
    intro port hport t
    have hdigits := all_eq_true.mp (Bool.and_eq_true_iff.mp hport).2
    exact toAsciiLowercase_eq_iff fun c hc => not_isAlpha_of_isDigit (hdigits c hc)
  constructor
  · rintro ⟨candidate, port, hs, hno, hne, hisPort⟩
    obtain ⟨front, back, rfl, rfl, hback⟩ := map_eq_append_iff.mp hs
    obtain ⟨c, rest, rfl, hc, hrest⟩ := map_eq_cons_iff.mp hback
    obtain rfl := (toLower_eq_iff (by decide)).mp hc
    obtain rfl := (hport hisPort).mp hrest
    exact ⟨front, rest, rfl, fun h => hno ((mem_toAsciiLowercase (by decide)).mpr h), by simpa using hne, hisPort⟩
  · rintro ⟨candidate, port, rfl, hno, hne, hisPort⟩
    refine ⟨toAsciiLowercase candidate, port, ?_, fun h => hno ((mem_toAsciiLowercase (by decide)).mp h),
      by simpa [toAsciiLowercase] using hne, hisPort⟩
    have hlower := (hport hisPort).mpr rfl
    rw [toAsciiLowercase] at hlower
    rw [toAsciiLowercase, map_append, map_cons, hlower]
    rfl

theorem isSettled_toAsciiLowercase {s : Str} : IsSettled (toAsciiLowercase s) ↔ IsSettled s := by
  have hlast : (toAsciiLowercase s).getLast? = some '.' ↔ s.getLast? = some '.' := by
    rw [← head?_reverse, ← head?_reverse, toAsciiLowercase, ← map_reverse]
    exact head?_toAsciiLowercase (by decide)
  rw [IsSettled, IsSettled, Ne, Ne, head?_toAsciiLowercase (by decide), hlast, hasPort_toAsciiLowercase]

theorem IsTail.bareHost_eq {lead blanks dots : Str} (h : IsTail blanks dots) (hlead : ∀ c ∈ lead, isWhitespace c)
    (hne : host ≠ []) (hdot : host.getLast? = some '.' → blanks ≠ []) :
    bareHost (lead ++ (host ++ (blanks ++ dots))) = trim host := by
  have hlast : (lead ++ host).getLast? = some '.' → blanks ≠ [] := by
    rw [getLast?_append_of_ne_nil _ hne]
    exact hdot
  rw [bareHost, ← append_assoc, h.trimEndMatches_eq hlast, append_assoc, trim_append_blanks hlead h.blank]

theorem isWhitespace_of_isDigit {c : Char} (h : c.isDigit) : isWhitespace c = false := by
  simp only [Char.isDigit, Bool.and_eq_true, decide_eq_true_eq, UInt32.le_iff_toNat_le] at h
  have hlow : 48 ≤ c.toNat := h.1
  have hhigh : c.toNat ≤ 57 := h.2
  simp only [isWhitespace, Bool.or_eq_false_iff, Bool.and_eq_false_iff, beq_eq_false_iff_ne, decide_eq_false_iff_not]
  omega

theorem HasPort.trim_eq (h : HasPort host) (hl : NoLeading host) : trim host = host := by
  obtain ⟨d, hlast, hdigit⟩ := h.getLast?
  refine trim_eq_self hl fun c hc => ?_
  obtain rfl := Option.some.inj (hlast.symm.trans hc)
  exact isWhitespace_of_isDigit hdigit

theorem HasPort.ne_nil (h : HasPort host) : host ≠ [] := by
  obtain ⟨candidate, port, rfl, -⟩ := h
  simp

/-- A host with a port ends in a digit, so a dot behind it is all that is taken off. -/
theorem HasPort.bareHost_eq {lead blanks dots : Str} (h : HasPort host) (hl : NoLeading host)
    (hlead : ∀ c ∈ lead, isWhitespace c) (htail : IsTail blanks dots) :
    bareHost (lead ++ (host ++ (blanks ++ dots))) = host := by
  rw [htail.bareHost_eq hlead h.ne_nil, h.trim_eq hl]
  intro hdot
  obtain ⟨d, hlast, hdigit⟩ := h.getLast?
  obtain rfl := Option.some.inj (hlast.symm.trans hdot)
  cases hdigit

section Settled

variable {s part : Str}

/-- Nothing but blanks stands before what is kept of a host. -/
theorem head?_bareHost (hne : bareHost part ≠ []) (hvisible : ∀ c ∈ bareHost part, isWhitespace c = false) :
    (part.dropWhile isWhitespace).head? = (bareHost part).head? := by
  obtain ⟨lead, blanks, dots, hpart, hlead, -, -⟩ := exists_bareHost part
  obtain ⟨c, rest, hbare⟩ := exists_cons_of_ne_nil hne
  conv_lhs => rw [hpart, dropWhile_append_of_pos hlead, hbare, cons_append]
  rw [dropWhile_cons_of_neg (by simp [hvisible c (by simp [hbare])]), hbare]
  rfl

theorem NeedsAgain.not_settled (h : NeedsAgain s) (hs : NoLeading s) (htext : HostText s part)
    (hne : bareHost part ≠ []) (hvisible : ∀ c ∈ bareHost part, isWhitespace c = false) :
    ¬ IsSettled (bareHost part) := by
  rintro ⟨hhead, hlast, hnoPort⟩
  cases h with
  | @dotBehindPort host blanks dots heq hopen hport htail hdots =>
    have hend : s.getLast? = some '.' := by
      rw [heq, ← append_assoc, getLast?_append_of_ne_nil _ hdots, getLast?_eq_some_getLast hdots,
        htail.dot _ (getLast_mem hdots)]
    have hno : ¬ HasPort s := by
      intro hports
      obtain ⟨d, hd, hdigit⟩ := hports.getLast?
      obtain rfl := Option.some.inj (hd.symm.trans hend)
      cases hdigit
    obtain rfl := htext.unique (.whole rfl hopen hno)
    have hlead : NoLeading host := fun c hc => hs c (by rw [heq, head?_append_of_ne_nil _ hport.ne_nil, hc])
    rw [heq, ← nil_append (host ++ _), hport.bareHost_eq hlead (by simp) htail] at hnoPort
    exact hnoPort hport
  | @portInBrackets lead host blanks dots rest heq hlead hhost hport htail =>
    have hno : ']' ∉ lead ++ (host ++ (blanks ++ dots)) := by
      simp only [mem_append, not_or]
      refine ⟨fun h => ?_, fun h => (hhost _ h).2 rfl, fun h => ?_, fun h => ?_⟩
      · cases hlead _ h
      · cases htail.blank _ h
      · cases htail.dot _ h
    obtain rfl := htext.unique (.inBrackets heq hno)
    rw [hport.bareHost_eq (fun c hc => (hhost c (mem_of_head? hc)).1) hlead htail] at hnoPort
    exact hnoPort hport
  | @bracketInBrackets lead inside rest heq hlead hinside =>
    have hno : ']' ∉ lead ++ '[' :: inside := by
      simp only [mem_append, mem_cons, not_or]
      refine ⟨fun h => ?_, by decide, hinside⟩
      cases hlead _ h
    obtain rfl := htext.unique (.inBrackets heq hno)
    refine hhead ?_
    rw [← head?_bareHost hne hvisible, dropWhile_append_of_pos hlead]
    rfl
  | @dotBeforeBlanks part' front blanks dots hpart' heq htail hblanks =>
    obtain rfl := htext.unique hpart'
    refine hlast ?_
    have hbare := @IsTail.bareHost_eq (front ++ ['.']) [] _ _ htail (by simp) (by simp) fun _ => hblanks
    obtain ⟨u, hu⟩ := trim_concat_visible front (show isWhitespace '.' = false from rfl)
    have hpart : part = [] ++ (front ++ ['.'] ++ (blanks ++ dots)) := by simpa using heq
    rw [hpart, hbare, hu, getLast?_concat]

theorem eq_nil_of_noLeading {lead rest : Str} (h : NoLeading (lead ++ rest)) (hlead : ∀ c ∈ lead, isWhitespace c) :
    lead = [] := by
  cases lead with
  | nil => rfl
  | cons c lead =>
    have hc := h c rfl
    rw [hlead c mem_cons_self] at hc
    cases hc

theorem needsAgain_of_not_settled (hl : NoLeading s) (ht : NoTrailing s) (htext : HostText s part)
    (hvisible : ∀ c ∈ bareHost part, isWhitespace c = false) (h : ¬ IsSettled (bareHost part)) : NeedsAgain s := by
  obtain ⟨lead, blanks, dots, hpart, hlead, htail, hdot⟩ := exists_bareHost part
  by_cases hlast : (bareHost part).getLast? = some '.'
  · obtain ⟨front, hfront⟩ := getLast?_eq_some_iff.mp hlast
    refine @NeedsAgain.dotBeforeBlanks s part (lead ++ front) _ _ htext ?_ htail (hdot hlast)
    conv_lhs => rw [hpart, hfront]
    simp
  by_cases hhead : (bareHost part).head? = some '['
  · obtain ⟨rest, hrest⟩ := head?_eq_some_iff.mp hhead
    rw [hrest] at hpart
    -- outside brackets the text itself would start with a bracket
    have hopens : ∀ behind, s = part ++ behind → s.head? = some '[' := by
      rintro behind rfl
      rw [hpart, append_assoc] at hl
      rw [hpart, eq_nil_of_noLeading hl hlead]
      rfl
    cases htext with
    | @inBrackets behind hs hno =>
      refine @NeedsAgain.bracketInBrackets s lead (rest ++ (blanks ++ dots)) behind ?_ hlead ?_
      · rw [hs, hpart]
        simp
      · intro hmem
        exact hno (by rw [hpart]; exact mem_append_right _ (mem_cons_of_mem _ hmem))
    | beforePort hs hopen _ _ _ => exact absurd (hopens _ hs) hopen
    | whole hs hopen _ => exact absurd (hopens [] (by rw [append_nil, hs])) hopen
  have hport : HasPort (bareHost part) := by
    by_contra hno
    exact h ⟨hhead, hlast, hno⟩
  cases htext with
  | @inBrackets rest hs hno =>
    refine @NeedsAgain.portInBrackets s _ _ _ _ rest (by rw [← hpart, hs]) hlead (fun c hc => ⟨hvisible c hc, ?_⟩) hport htail
    rintro rfl
    exact hno (bareHost_subset _ hc)
  | beforePort _ _ hno _ _ =>
    obtain ⟨candidate, port, heq, -⟩ := hport
    exact absurd (bareHost_subset _ (by simp [heq])) hno
  | whole hs hopen hno =>
    subst hs
    rw [hpart] at hl
    obtain rfl := eq_nil_of_noLeading hl hlead
    refine @NeedsAgain.dotBehindPort _ (bareHost part) _ _ hpart hopen hport htail fun hdots => hno ?_
    subst hdots
    rw [nil_append, append_nil] at hpart
    -- a trimmed text does not end in blanks
    have hblanks : blanks = [] := by
      by_contra hne
      have hlast := ht _ (by rw [hpart, getLast?_append_of_ne_nil _ hne, getLast?_eq_some_getLast hne])
      rw [htail.blank _ (getLast_mem hne)] at hlast
      cases hlast
    rw [hpart, hblanks, append_nil]
    exact hport

end Settled

/-- The host that is written to the rules file is read back as the host in memory exactly if the raw host has no dot
behind a port, no port or bracket in brackets and no dot before blanks. -/
theorem normalizeNetworkRuleHost_idempotent_iff {raw host : Str} (h : normalizeNetworkRuleHost raw = .ok host) :
    (normalizeNetworkRuleHost host = .ok host ↔ ¬ NeedsAgain (trim raw)) ∧
    ∀ (policy : Policy) (protocol : NetworkRuleProtocol) (decision : Decision) (justification : Option Str),
      (justification.any fun raw => (trim raw).isEmpty) = false →
      (policy.addNetworkRule host protocol decision justification =
        policy.addNetworkRule raw protocol decision justification ↔ ¬ NeedsAgain (trim raw)) := by
  obtain ⟨part, htext, rfl, hchecked⟩ := normalize_spec h
  have hne : bareHost part ≠ [] := by simpa [toAsciiLowercase] using hchecked.ne_nil
  have hvisible : ∀ c ∈ bareHost part, isWhitespace c = false := fun c hc => by
    simpa using hchecked.visible c.toLower (mem_map_of_mem hc)
  have hsettled : IsSettled (bareHost part) ↔ ¬ NeedsAgain (trim raw) := by
    constructor
    · intro hsettled hagain
      exact hagain.not_settled (noLeading_trim raw) htext hne hvisible hsettled
    · intro hagain
      by_contra hno
      exact hagain (needsAgain_of_not_settled (noLeading_trim raw) (noTrailing_trim raw) htext hvisible hno)
  have hiff := hchecked.normalize_self_iff.trans (isSettled_toAsciiLowercase.trans hsettled)
  refine ⟨hiff, fun policy protocol decision justification hjust => ?_⟩
  rw [← hiff]
  unfold Policy.addNetworkRule
  rw [h]
  cases hagain : normalizeNetworkRuleHost (toAsciiLowercase (bareHost part)) with
  | error e | ok again => simp [bind, Except.bind, pure, Except.pure, hjust]

theorem normalizeNetworkRuleHost_idempotent_bracketed :
    normalizeNetworkRuleHost " [Example.com. ]:443 ".toList = .ok "example.com.".toList ∧
      normalizeNetworkRuleHost "example.com.".toList ≠ .ok "example.com.".toList ∧
      normalizeNetworkRuleHost " Example.com:443 ".toList = .ok "example.com".toList ∧
      ¬ NeedsAgain (trim " Example.com:443 ".toList) := by
  have h : normalizeNetworkRuleHost " [Example.com. ]:443 ".toList = .ok "example.com.".toList := by decide +kernel
  have h' : normalizeNetworkRuleHost " Example.com:443 ".toList = .ok "example.com".toList := by decide +kernel
  refine ⟨h, fun hself => ?_, h', (normalizeNetworkRuleHost_idempotent_iff h').1.mp (by decide +kernel)⟩
  have htext : HostText (trim " [Example.com. ]:443 ".toList) "Example.com. ".toList :=
    @HostText.inBrackets _ _ ":443".toList (by decide +kernel) (by decide +kernel)
  refine (normalizeNetworkRuleHost_idempotent_iff h).1.mp hself
    (@NeedsAgain.dotBeforeBlanks _ _ "Example.com".toList [' '] [] htext ?_ ?_ ?_)
  · decide +kernel
  · exact ⟨by simp [isWhitespace], by simp⟩
  · simp

/-- The dot behind a port hides the port, which is found when the rule is read back. -/
theorem normalizeNetworkRuleHost_portDot :
    normalizeNetworkRuleHost "example.com:443.".toList = .ok "example.com:443".toList ∧
      normalizeNetworkRuleHost "example.com:443".toList = .ok "example.com".toList := by
  decide +kernel

end Dcode.ExecPolicy
