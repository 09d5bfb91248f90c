import Dcode.ExecPolicy.Proofs.PolicyProofs
import Dcode.ExecPolicy.Proofs.RulesFileProofs

/-!
# Proofs: the policy in memory and the one on disk

The policy on disk has every rule of the policy in memory, and besides some allow rules that were skipped
in memory. A skipped rule is harmless if the rules in memory decide alike about every command it matches.
-/

namespace Dcode.ExecPolicy

open List Policy AbsolutePathBuf Option

/-! ## Prefixes -/

variable {rule : PrefixRule} {first : Str} {args : List Str}

theorem isSome_matches_iff : (rule.matches (first :: args)).isSome ↔ rule.pattern.rest.length ≤ args.length ∧
      first = rule.pattern.first ∧
      (rule.pattern.rest.zip args).all (fun pair => pair.1.matches pair.2) := by
  rw [PrefixRule.matches, PrefixPattern.matchesPrefix, length_cons, head?_cons]
  by_cases hguard : args.length + 1 < rule.pattern.rest.length + 1 ∨ some first ≠ some rule.pattern.first
  · rw [if_pos hguard]
    refine iff_of_false Bool.false_ne_true ?_
    rintro ⟨hlen, rfl, -⟩
    exact hguard.elim (by omega) fun h => h rfl
  · rw [if_neg hguard]
    split <;> simp_all

theorem zip_append_of_length_le {α β : Type} {l : List α} {l' : List β} (h : l.length ≤ l'.length)
    (l'' : List β) : l.zip (l' ++ l'') = l.zip l' := by
  induction l generalizing l' with
  | nil => simp
  | cons a l ih =>
    cases l' with
    | nil => simp at h
    | cons b l' =>
      rw [cons_append, zip_cons_cons, zip_cons_cons, ih (by simpa using h)]

theorem isSome_matches_append (h : (rule.matches (first :: args)).isSome) (more : List Str) :
    (rule.matches (first :: (args ++ more))).isSome := by
  obtain ⟨hlen, hfirst, hall⟩ := isSome_matches_iff.mp h
  refine isSome_matches_iff.mpr ⟨?_, hfirst, ?_⟩
  · rw [length_append]
    omega
  · rwa [zip_append_of_length_le hlen]

theorem all_zip_single_iff {tokens : List Str} : (tokens.length ≤ args.length ∧
      ((tokens.map PatternToken.single).zip args).all (fun pair => pair.1.matches pair.2)) ↔
      ∃ more, args = tokens ++ more := by
  induction tokens generalizing args with
  | nil => simp
  | cons t tokens ih =>
    cases args with
    | nil => simp
    | cons a args =>
      have hih := @ih args
      simp only [map_cons, zip_cons_cons, all_cons, Bool.and_eq_true, length_cons,
        Nat.add_le_add_iff_right, PatternToken.matches, decide_eq_true_eq, cons_append,
        cons.injEq] at hih ⊢
      constructor
      · rintro ⟨hlen, rfl, hall⟩
        obtain ⟨more, rfl⟩ := hih.mp ⟨hlen, hall⟩
        exact ⟨more, rfl, rfl⟩
      · rintro ⟨more, rfl, rfl⟩
        obtain ⟨hlen, hall⟩ := hih.mpr ⟨more, rfl⟩
        exact ⟨hlen, rfl, hall⟩

theorem isSome_tokensRule_matches {k : Str} {rest : List Str} {d : Decision} :
    ((tokensRule first rest d).matches (k :: args)).isSome ↔ k = first ∧ ∃ more, args = rest ++ more := by
  rw [isSome_matches_iff, ← all_zip_single_iff]
  simp only [tokensRule, length_map]
  constructor
  · rintro ⟨hlen, hk, hall⟩
    exact ⟨hk, hlen, hall⟩
  · rintro ⟨hk, hlen, hall⟩
    exact ⟨hlen, hk, hall⟩

/-! ## Names of programs -/

variable {env : ProcessEnv}

theorem normal_of_resolveProgram {basename : Str} {program : AbsolutePathBuf}
    (h : resolveProgram env first = some (program, basename)) : NormalComponent basename := by
  obtain ⟨p, -, h⟩ := bind_eq_some_iff.mp h
  obtain ⟨b, hb, h⟩ := bind_eq_some_iff.mp h
  obtain ⟨rfl, rfl⟩ := Prod.mk.inj (Option.some.inj h)
  exact p.normal b (mem_of_getLast? hb)

theorem maybeExpandHomeDirectory_of_normal (hnormal : NormalComponent first) (hhome : first ≠ ['~']) :
    maybeExpandHomeDirectory env first = first := by
  unfold maybeExpandHomeDirectory
  split
  · exact absurd rfl hhome
  · exact absurd (by simp) hnormal.2.2.2
  · rfl

theorem resolveProgram_of_normal {basename : Str} {program : AbsolutePathBuf} (hnormal : NormalComponent first)
    (hhome : first ≠ ['~']) (h : resolveProgram env first = some (program, basename)) : basename = first := by
  unfold resolveProgram fromAbsolutePath at h
  rw [maybeExpandHomeDirectory_of_normal hnormal hhome] at h
  have hslash : first.head? ≠ some '/' :=
    fun hhead => hnormal.2.2.2 (mem_of_mem_head? hhead)
  obtain ⟨p, hp, h⟩ := bind_eq_some_iff.mp h
  rw [if_neg hslash] at hp
  obtain ⟨cwd, -, rfl⟩ := map_eq_some_iff.mp hp
  obtain ⟨b, hb, h⟩ := bind_eq_some_iff.mp h
  obtain ⟨-, rfl⟩ := Prod.mk.inj (Option.some.inj h)
  have hlast : (absolutizeFrom first cwd).components = cwd.components ++ [first] := by
    unfold absolutizeFrom
    rw [splitOn_eq_singleton hnormal.2.2.2, if_neg hslash]
    simp [push, hnormal, child]
  unfold executablePathLookupKey fileName at hb
  rw [hlast] at hb
  simpa using hb.symm

variable {policy : Policy}

theorem excluded_args (h : Excluded env policy (first :: args)) (args' : List Str) :
    Excluded env policy (first :: args') := by
  simpa [Excluded] using h

theorem MatchesExact.append (h : MatchesExact policy (first :: args) rule) (more : List Str) :
    MatchesExact policy (first :: (args ++ more)) rule := by
  rw [matchesExact_cons] at h ⊢
  exact ⟨h.1, isSome_matches_append h.2 more⟩

theorem MatchesName.append (h : MatchesName env policy (first :: args) rule) (more : List Str) :
    MatchesName env policy (first :: (args ++ more)) rule := by
  obtain ⟨first', args', program, basename, heq, hresolve, hrule, hsome⟩ := h
  obtain ⟨rfl, rfl⟩ := cons.inj heq
  exact ⟨first, args ++ more, program, basename, rfl, hresolve, hrule, isSome_matches_append hsome more⟩

/-! ## Skipped rules -/

/-- An allow rule for the tokens `first :: rest` changes nothing: every command that starts with them
either has a rule for its first token already or is allowed by the rules for its program's name alone, and
a rule stands under the name `first` for every command that is looked up there. -/
structure Harmless (env : ProcessEnv) (policy : Policy) (first : Str) (rest : List Str) : Prop where
  exact : ∀ args, (∃ rule, MatchesExact policy (first :: (rest ++ args)) rule) ∨
    (¬ Excluded env policy (first :: (rest ++ args)) ∧ (∃ rule, MatchesName env policy (first :: (rest ++ args)) rule) ∧
      ∀ rule, MatchesName env policy (first :: (rest ++ args)) rule → rule.decision = .allow)
  name : NormalComponent first → ∀ args, ∃ rule ∈ policy.rulesFor first, (rule.matches (first :: (rest ++ args))).isSome

structure AllowsMore (policy policy' : Policy) : Prop where
  hosts : policy'.hostExecutablesByName = policy.hostExecutablesByName
  rules : ∀ k rule, rule ∈ policy.rulesFor k → rule ∈ policy'.rulesFor k
  allow : ∀ k rule, rule ∈ policy'.rulesFor k → rule ∈ policy.rulesFor k ∨ rule.decision = .allow

section

variable {env : ProcessEnv} {policy policy' : Policy}

variable {cmd : List Str}

theorem AllowsMore.excluded_iff (h : AllowsMore policy policy') :
    Excluded env policy' cmd ↔ Excluded env policy cmd := by
  unfold Excluded
  rw [h.hosts]

variable {rule : PrefixRule}

section

variable (h : AllowsMore policy policy')

include h

theorem AllowsMore.matchesExact (hm : MatchesExact policy cmd rule) : MatchesExact policy' cmd rule := by
  obtain ⟨first, args, hcmd, hrule, hsome⟩ := hm
  exact ⟨first, args, hcmd, h.rules first rule hrule, hsome⟩

theorem AllowsMore.matchesName (hm : MatchesName env policy cmd rule) : MatchesName env policy' cmd rule := by
  obtain ⟨first, args, program, basename, hcmd, hresolve, hrule, hsome⟩ := hm
  exact ⟨first, args, program, basename, hcmd, hresolve, h.rules basename rule hrule, hsome⟩

theorem AllowsMore.of_matchesName (hm : MatchesName env policy' cmd rule) :
    MatchesName env policy cmd rule ∨ rule.decision = .allow := by
  obtain ⟨first, args, program, basename, hcmd, hresolve, hrule, hsome⟩ := hm
  rcases h.allow basename rule hrule with hrule | hallow
  · exact Or.inl ⟨first, args, program, basename, hcmd, hresolve, hrule, hsome⟩
  · exact Or.inr hallow

end

variable {first : Str} {rest : List Str}

theorem Harmless.mono (hh : Harmless env policy first rest) (h : AllowsMore policy policy') :
    Harmless env policy' first rest := by
  constructor
  · intro args
    rcases hh.exact args with ⟨rule, hrule⟩ | ⟨hex, ⟨rule, hrule⟩, hall⟩
    · exact Or.inl ⟨rule, h.matchesExact hrule⟩
    · refine Or.inr ⟨fun hx => hex (h.excluded_iff.mp hx), ⟨rule, h.matchesName hrule⟩, ?_⟩
      intro rule' hrule'
      rcases h.of_matchesName hrule' with hrule' | hallow
      · exact hall rule' hrule'
      · exact hallow
  · intro hnormal args
    obtain ⟨rule, hrule, hsome⟩ := hh.name hnormal args
    exact ⟨rule, h.rules first rule hrule, hsome⟩

theorem mem_rulesFor_allowTokens {k : Str} : rule ∈ (allowTokens policy (first :: rest)).rulesFor k ↔
      rule ∈ policy.rulesFor k ∨ (k = first ∧ rule = tokensRule first rest .allow) := by
  show rule ∈ ((insertRule policy.rulesByProgram first _).lookup k).getD [] ↔ _
  rw [rulesFor_insertRule]
  by_cases hk : k = first
  · simp [rulesFor]
  · simp [rulesFor]

theorem allowsMore_allowTokens (policy : Policy) (first : Str) (rest : List Str) :
    AllowsMore policy (allowTokens policy (first :: rest)) := by
  refine ⟨rfl, fun k rule hrule => mem_rulesFor_allowTokens.mpr (Or.inl hrule), fun k rule hrule => ?_⟩
  rcases mem_rulesFor_allowTokens.mp hrule with hrule | ⟨-, rfl⟩
  · exact Or.inl hrule
  · exact Or.inr rfl

/-! ## Amendments -/

theorem alreadyAllowed_matches (h : alreadyAllowed env policy cmd) : (∃ rule, MatchesExact policy cmd rule) ∨
      (¬ Excluded env policy cmd ∧ ∃ rule, MatchesName env policy cmd rule) := by
  obtain ⟨e, he, hgreatest⟩ := checkWithOptions_spec env policy cmd fun _ => .forbidden
  have hallow : e.decision = .allow := by
    unfold alreadyAllowed checkMultipleWithOptions at h
    unfold checkWithOptions at he
    rw [flatMap_cons, flatMap_nil, append_nil] at h
    change (Evaluation.fromMatches (policy.matchesForCommandWithOptions env cmd _ hostOptions)).any _ = _ at h
    rw [he] at h
    simp only [any_some, Bool.and_eq_true, decide_eq_true_eq] at h
    exact h.1
  rcases hgreatest.1 with ⟨rule, hrule, -⟩ | ⟨-, hex, rule, hrule, -⟩ | ⟨-, -, hfall⟩
  · exact Or.inl ⟨rule, hrule⟩
  · exact Or.inr ⟨hex, rule, hrule⟩
  · rw [hallow] at hfall
    cases hfall

/-- If the prefix of an amendment is allowed, then by a rule for its first token; or that is not `~`, and
no stricter rule for the program's name decides about a command that starts with the prefix. -/
def AmendmentOk (env : ProcessEnv) (policy : Policy) : List Str → Prop
  | [] => True
  | first :: rest => alreadyAllowed env policy (first :: rest) → (∃ rule, MatchesExact policy (first :: rest) rule) ∨
      (first ≠ ['~'] ∧ ∀ args, (∃ rule, MatchesExact policy (first :: (rest ++ args)) rule) ∨
        ∀ rule, MatchesName env policy (first :: (rest ++ args)) rule → rule.decision = .allow)

/-- A rule that is skipped in memory is harmless. -/
theorem harmless_of_alreadyAllowed (hok : AmendmentOk env policy (first :: rest))
    (h : alreadyAllowed env policy (first :: rest)) : Harmless env policy first rest := by
  by_cases hexact : ∃ rule, MatchesExact policy (first :: rest) rule
  · obtain ⟨rule, hrule⟩ := hexact
    refine ⟨fun args => Or.inl ⟨rule, hrule.append args⟩, fun _ args => ?_⟩
    obtain ⟨hmem, hsome⟩ := matchesExact_cons.mp hrule
    exact ⟨rule, hmem, isSome_matches_append hsome args⟩
  · obtain ⟨hex, rule, hrule⟩ := (alreadyAllowed_matches h).resolve_left hexact
    obtain ⟨hhome, hall⟩ := (hok h).resolve_left hexact
    constructor
    · intro args
      rcases hall args with hrule' | hallow
      · exact Or.inl hrule'
      · exact Or.inr ⟨fun hx => hex (excluded_args hx rest), ⟨rule, hrule.append args⟩, hallow⟩
    · intro hnormal args
      -- the program has the name `first`, so the rule stands under it
      obtain ⟨first', args', program, basename, heq, hresolve, hmem, hsome⟩ := hrule
      obtain ⟨rfl, rfl⟩ := cons.inj heq
      obtain rfl := resolveProgram_of_normal hnormal hhome hresolve
      exact ⟨rule, hmem, isSome_matches_append hsome args⟩

end

/-! ## Memory and disk -/

/-- The policy on disk has the rules in memory, and besides only harmless allow rules. -/
structure Agrees (env : ProcessEnv) (memory disk : Policy) : Prop where
  hosts : disk.hostExecutablesByName = memory.hostExecutablesByName
  rules : ∀ k rule, rule ∈ memory.rulesFor k → rule ∈ disk.rulesFor k
  extra : ∀ k rule, rule ∈ disk.rulesFor k → rule ∈ memory.rulesFor k ∨
    ∃ rest, rule = Policy.tokensRule k rest .allow ∧ Harmless env memory k rest

section

variable {env : ProcessEnv} {memory disk : Policy} {cmd : List Str} {fallback : List Str → Decision}

section

variable (h : Agrees env memory disk)

include h

theorem Agrees.allowsMore : AllowsMore memory disk := by
  refine ⟨h.hosts, h.rules, fun k rule hrule => ?_⟩
  rcases h.extra k rule hrule with hrule | ⟨rest, rfl, -⟩
  · exact Or.inl hrule
  · exact Or.inr rfl

/-- A rule on disk for the first token is in memory, or its command starts with harmless tokens. -/
theorem Agrees.of_matchesExact {rule : PrefixRule} (hm : MatchesExact disk cmd rule) :
    MatchesExact memory cmd rule ∨ (rule.decision = .allow ∧
      ∃ first rest args, cmd = first :: (rest ++ args) ∧ Harmless env memory first rest) := by
  obtain ⟨first, args, hcmd, hrule, hsome⟩ := hm
  rcases h.extra first rule hrule with hrule | ⟨rest, rfl, hharmless⟩
  · exact Or.inl ⟨first, args, hcmd, hrule, hsome⟩
  · rw [hcmd] at hsome
    obtain ⟨-, more, rfl⟩ := isSome_tokensRule_matches.mp hsome
    exact Or.inr ⟨rfl, first, rest, more, hcmd, hharmless⟩

theorem Agrees.exists_matchesName (hm : ∃ rule, MatchesName env disk cmd rule) :
    ∃ rule, MatchesName env memory cmd rule := by
  obtain ⟨rule, first, args, program, basename, hcmd, hresolve, hrule, hsome⟩ := hm
  rcases h.extra basename rule hrule with hrule | ⟨rest, rfl, hharmless⟩
  · exact ⟨rule, first, args, program, basename, hcmd, hresolve, hrule, hsome⟩
  · obtain ⟨-, more, rfl⟩ := isSome_tokensRule_matches.mp hsome
    obtain ⟨rule', hrule', hsome'⟩ := hharmless.name (normal_of_resolveProgram hresolve) more
    exact ⟨rule', first, rest ++ more, program, basename, hcmd, hresolve, hrule', hsome'⟩

end

variable {d : Decision}

/-- More rules, all of which allow, do not change the greatest decision. -/
theorem isGreatest_of_allow {M M' : PrefixRule → Prop} (hsub : ∀ rule, M rule → M' rule)
    (hallow : ∀ rule, M' rule → M rule ∨ rule.decision = .allow)
    (h : IsGreatest { d | ∃ rule, M rule ∧ rule.decision = d } d) :
    IsGreatest { d | ∃ rule, M' rule ∧ rule.decision = d } d := by
  obtain ⟨⟨rule, hrule, hd⟩, hle⟩ := h
  refine ⟨⟨rule, hsub rule hrule, hd⟩, ?_⟩
  rintro e ⟨rule', hrule', rfl⟩
  rcases hallow rule' hrule' with hrule' | hallow
  · exact hle ⟨rule', hrule', rfl⟩
  · rw [hallow]
    exact Decision.allow_le d

section

variable (h : Agrees env memory disk)

include h

/-- Rules in memory for the first token decide on disk too. -/
theorem Agrees.isGreatest_of_exact (hexact : ∃ rule, MatchesExact memory cmd rule)
    (hd : IsGreatest { d | Consulted env memory cmd fallback d } d) :
    IsGreatest { d | Consulted env disk cmd fallback d } d := by
  have hsub := fun rule => @AllowsMore.matchesExact _ _ cmd rule h.allowsMore
  simp only [consulted_of_exact hexact] at hd
  simp only [consulted_of_exact (hexact.imp hsub)]
  exact isGreatest_of_allow hsub (fun rule hrule => (h.of_matchesExact hrule).imp_right And.left) hd

/-- A skipped rule decides on disk, the rules for the name in memory: both allow. -/
theorem Agrees.isGreatest_of_skipped (hexact : ¬ ∃ rule, MatchesExact memory cmd rule)
    (hexact' : ∃ rule, MatchesExact disk cmd rule) (hd : IsGreatest { d | Consulted env memory cmd fallback d } d) :
    IsGreatest { d | Consulted env disk cmd fallback d } d := by
  have hskipped : ∀ rule, MatchesExact disk cmd rule → rule.decision = .allow ∧
      ∃ first rest args, cmd = first :: (rest ++ args) ∧ Harmless env memory first rest :=
    fun rule hrule => (h.of_matchesExact hrule).resolve_left fun hrule => hexact ⟨rule, hrule⟩
  obtain ⟨rule, hrule⟩ := hexact'
  obtain ⟨hallow, first, rest, args, hcmd, hharmless⟩ := hskipped rule hrule
  subst hcmd
  obtain ⟨hex, hname, hall⟩ := (hharmless.exact args).resolve_left hexact
  obtain ⟨top, htop, rfl⟩ := (consulted_of_name hexact hex hname).mp hd.1
  rw [hall top htop]
  refine ⟨(consulted_of_exact ⟨rule, hrule⟩).mpr ⟨rule, hrule, hallow⟩, ?_⟩
  intro e he
  obtain ⟨rule', hrule', rfl⟩ := (consulted_of_exact ⟨rule, hrule⟩).mp he
  rw [(hskipped rule' hrule').1]

/-- Rules in memory for the name of the program decide on disk too. -/
theorem Agrees.isGreatest_of_name (hexact : ¬ ∃ rule, MatchesExact memory cmd rule)
    (hexact' : ¬ ∃ rule, MatchesExact disk cmd rule) (hex : ¬ Excluded env memory cmd)
    (hname : ∃ rule, MatchesName env memory cmd rule) (hd : IsGreatest { d | Consulted env memory cmd fallback d } d) :
    IsGreatest { d | Consulted env disk cmd fallback d } d := by
  have hmore := h.allowsMore
  have hex' : ¬ Excluded env disk cmd := fun hx => hex (hmore.excluded_iff.mp hx)
  have hsub := fun rule => @AllowsMore.matchesName env _ _ cmd rule hmore
  simp only [consulted_of_name hexact hex hname] at hd
  simp only [consulted_of_name hexact' hex' (hname.imp hsub)]
  exact isGreatest_of_allow hsub (fun rule => hmore.of_matchesName) hd

theorem Agrees.isGreatest (hd : IsGreatest { d | Consulted env memory cmd fallback d } d) :
    IsGreatest { d | Consulted env disk cmd fallback d } d := by
  by_cases hexact : ∃ rule, MatchesExact memory cmd rule
  · exact h.isGreatest_of_exact hexact hd
  by_cases hexact' : ∃ rule, MatchesExact disk cmd rule
  · exact h.isGreatest_of_skipped hexact hexact' hd
  by_cases hhost : ¬ Excluded env memory cmd ∧ ∃ rule, MatchesName env memory cmd rule
  · exact h.isGreatest_of_name hexact hexact' hhost.1 hhost.2 hd
  -- without a rule the fallback decides on both sides
  rw [not_and_or, not_not] at hhost
  have hhost' : Excluded env disk cmd ∨ ¬ ∃ rule, MatchesName env disk cmd rule :=
    hhost.imp h.allowsMore.excluded_iff.mpr fun hno hname => hno (h.exists_matchesName hname)
  simp only [consulted_of_fallback hexact hhost] at hd
  simpa only [consulted_of_fallback hexact' hhost'] using hd

/-- Policies that agree decide alike. -/
theorem Agrees.decision_eq (cmd : List Str) (fallback : List Str → Decision) :
    ∃ e e', memory.checkWithOptions env cmd fallback hostOptions = some e ∧
      disk.checkWithOptions env cmd fallback hostOptions = some e' ∧ e.decision = e'.decision := by
  obtain ⟨e, he, hgreatest⟩ := checkWithOptions_spec env memory cmd fallback
  obtain ⟨e', he', hgreatest'⟩ := checkWithOptions_spec env disk cmd fallback
  exact ⟨e, e', he, he', (h.isGreatest hgreatest).unique hgreatest'⟩

end

end

/-! ## Runs -/

def RulesFileOk (policy : Policy) (rulesFile : Str) : Prop :=
  ∀ first rest, allowRuleLine (first :: rest) ∈ lineTexts rulesFile →
    Policy.tokensRule first rest .allow ∈ policy.rulesFor first

structure Persisted (env : ProcessEnv) (manager : ExecPolicyManager) (disk : Policy) : Prop where
  agrees : Agrees env manager.policy disk
  file : RulesFileOk disk manager.rulesFile

theorem afterAmendment_cons (env : ProcessEnv) (manager : ExecPolicyManager) (first : Str)
    (rest : List Str) : afterAmendment env manager (first :: rest) =
      { policy := if alreadyAllowed env manager.policy (first :: rest) then manager.policy
          else allowTokens manager.policy (first :: rest)
        rulesFile := appendLockedLine manager.rulesFile (allowRuleLine (first :: rest)) } := by
  unfold afterAmendment appendAmendmentAndUpdate blockingAppendAllowPrefixRule
  simp only [cons_ne_nil, if_false]
  split
  next h =>
    split at h
    next hallowed =>
      cases h
      simp [hallowed]
    next hallowed =>
      cases h
      simp [hallowed, allowTokens, addPrefixRule]
  next h =>
    split at h
    · cases h
    · cases h

/-- What the file stands for after a line for the tokens was appended, unless it was there. -/
def persistTokens (disk : Policy) (rulesFile : Str) (tokens : List Str) : Policy :=
  if allowRuleLine tokens ∈ Str.lines rulesFile then disk else allowTokens disk tokens

section

variable {env : ProcessEnv} {manager : ExecPolicyManager} {disk : Policy} {first : Str}
  {rest : List Str}

variable {rulesFile : Str}

theorem mem_rulesFor_persistTokens {k : Str} {rule : PrefixRule}
    (h : rule ∈ (persistTokens disk rulesFile (first :: rest)).rulesFor k) :
    rule ∈ disk.rulesFor k ∨ (k = first ∧ rule = tokensRule first rest .allow) := by
  unfold persistTokens at h
  split at h
  · exact Or.inl h
  · exact mem_rulesFor_allowTokens.mp h

theorem rulesFor_subset_persistTokens {k : Str} {rule : PrefixRule} (h : rule ∈ disk.rulesFor k) :
    rule ∈ (persistTokens disk rulesFile (first :: rest)).rulesFor k := by
  unfold persistTokens
  split
  · exact h
  · exact mem_rulesFor_allowTokens.mpr (Or.inl h)

theorem getLast_allowRuleLine_ne_cr (tokens : List Str) : (allowRuleLine tokens).getLast? ≠ some '\r' := by
  rw [allowRuleLine_getLast]
  decide

theorem allowRuleLine_ne_nil (tokens : List Str) : allowRuleLine tokens ≠ [] := by
  intro hnil
  have hlast := allowRuleLine_getLast tokens
  rw [hnil] at hlast
  cases hlast

/-- The amended rule is on disk, whether its line was appended or found. -/
theorem RulesFileOk.mem_persistTokens (h : RulesFileOk disk rulesFile) : tokensRule first rest .allow ∈
      (persistTokens disk rulesFile (first :: rest)).rulesFor first := by
  unfold persistTokens
  split
  next hline =>
    exact h first rest (mem_lineTexts_of_mem_lines hline (getLast_allowRuleLine_ne_cr _))
  · exact mem_rulesFor_allowTokens.mpr (Or.inr ⟨rfl, rfl⟩)

theorem RulesFileOk.append (h : RulesFileOk disk rulesFile) : RulesFileOk (persistTokens disk rulesFile (first :: rest))
      (appendLockedLine rulesFile (allowRuleLine (first :: rest))) := by
  intro first' rest' hmem
  rcases mem_lineTexts_appendLockedLine (newline_notMem_allowRuleLine first rest)
    (getLast_allowRuleLine_ne_cr _) (allowRuleLine_ne_nil _) hmem with hold | heq
  · exact rulesFor_subset_persistTokens (h first' rest' hold)
  · obtain ⟨rfl, rfl⟩ := allowRuleLine_inj heq
    exact h.mem_persistTokens

theorem Persisted.afterAmendment (h : Persisted env manager disk)
    (hok : AmendmentOk env manager.policy (first :: rest)) :
    Persisted env (afterAmendment env manager (first :: rest))
      (persistTokens disk manager.rulesFile (first :: rest)) := by
  have hhosts : (persistTokens disk manager.rulesFile (first :: rest)).hostExecutablesByName =
      disk.hostExecutablesByName := by
    unfold persistTokens
    split <;> rfl
  rw [afterAmendment_cons]
  refine ⟨?_, h.file.append⟩
  by_cases hallowed : alreadyAllowed env manager.policy (first :: rest)
  · -- the rule is skipped in memory
    rw [if_pos hallowed]
    refine ⟨hhosts.trans h.agrees.hosts, fun k rule hrule =>
      rulesFor_subset_persistTokens (h.agrees.rules k rule hrule), fun k rule hrule => ?_⟩
    rcases mem_rulesFor_persistTokens hrule with hrule | ⟨rfl, rfl⟩
    · exact h.agrees.extra k rule hrule
    · exact Or.inr ⟨rest, rfl, harmless_of_alreadyAllowed hok hallowed⟩
  · rw [if_neg hallowed]
    have hmore := allowsMore_allowTokens manager.policy first rest
    refine ⟨hhosts.trans h.agrees.hosts, fun k rule hrule => ?_, fun k rule hrule => ?_⟩
    · rcases mem_rulesFor_allowTokens.mp hrule with hrule | ⟨rfl, rfl⟩
      · exact rulesFor_subset_persistTokens (h.agrees.rules k rule hrule)
      · exact h.file.mem_persistTokens
    · rcases mem_rulesFor_persistTokens hrule with hrule | ⟨rfl, rfl⟩
      · rcases h.agrees.extra k rule hrule with hrule | ⟨rest', rfl, hharmless⟩
        · exact Or.inl (hmore.rules k rule hrule)
        · exact Or.inr ⟨rest', rfl, hharmless.mono hmore⟩
      · exact Or.inl (mem_rulesFor_allowTokens.mpr (Or.inr ⟨rfl, rfl⟩))

end

def AmendmentsOk (env : ProcessEnv) : ExecPolicyManager → List (List Str) → Prop
  | _, [] => True
  | manager, command :: commands => AmendmentOk env manager.policy command ∧
      AmendmentsOk env (afterAmendment env manager command) commands

theorem persisted_afterAmendments {manager : ExecPolicyManager} {disk : Policy} (h : Persisted env manager disk)
    (commands : List (List Str)) (hok : AmendmentsOk env manager commands) :
    Persisted env (afterAmendments env manager commands) (rebuiltPolicy disk manager.rulesFile commands) := by
  induction commands generalizing manager disk with
  | nil => exact h
  | cons command commands ih =>
    obtain ⟨hfirst, hrest⟩ := hok
    cases command with
    | nil =>
      exact ih h hrest
    | cons first rest =>
      have hstep := ih (h.afterAmendment hfirst) hrest
      have hfile : (afterAmendment env manager (first :: rest)).rulesFile =
          appendLockedLine manager.rulesFile (allowRuleLine (first :: rest)) := by
        rw [afterAmendment_cons]
      have hdisk : rebuiltPolicy disk manager.rulesFile ((first :: rest) :: commands) =
          rebuiltPolicy (persistTokens disk manager.rulesFile (first :: rest))
            (afterAmendment env manager (first :: rest)).rulesFile commands := by
        rw [rebuiltPolicy, hfile, persistTokens]
        by_cases hline : allowRuleLine (first :: rest) ∈ Str.lines manager.rulesFile
        · rw [if_pos (Or.inr hline), if_pos hline, appendLockedLine, if_pos hline]
        · rw [if_neg (by simpa using hline), if_neg hline]
      rw [hdisk]
      exact hstep

/-- After a sequence of amendments, the policy in memory decides about every command as the one rebuilt
from the rules file. -/
theorem amended_decision_eq (env : ProcessEnv) (policy : Policy) (rulesFile : Str)
    (commands : List (List Str)) (hfile : RulesFileOk policy rulesFile)
    (hok : AmendmentsOk env { policy := policy, rulesFile := rulesFile } commands) (cmd : List Str)
    (fallback : List Str → Decision) :
    ∃ memory disk, (afterAmendments env { policy := policy, rulesFile := rulesFile } commands).policy.checkWithOptions
        env cmd fallback hostOptions = some memory ∧
      (rebuiltPolicy policy rulesFile commands).checkWithOptions env cmd fallback hostOptions = some disk ∧
      memory.decision = disk.decision := by
  have hstart : Persisted env { policy := policy, rulesFile := rulesFile } policy :=
    ⟨⟨rfl, fun _ _ h => h, fun _ _ h => Or.inl h⟩, hfile⟩
  exact (persisted_afterAmendments hstart commands hok).agrees.decision_eq cmd fallback

/-- Every command of git is allowed, in memory and by the one line of the file. -/
def allowGit : ExecPolicyManager where
  policy := oneRule "git".toList [] .allow
  rulesFile := "prefix_rule(pattern=[\"git\"], decision=\"allow\")\n".toList

/-- The prefix of the line, one that is allowed by its first token, one that is allowed by the name of its program, and one
that is not allowed yet. -/
def gitAmendments : List (List Str) :=
  [["git".toList], ["git".toList, "status".toList], ["/usr/bin/git".toList, "log".toList], ["cargo".toList, "test".toList]]

theorem rulesFileOk_allowGit : RulesFileOk allowGit.policy allowGit.rulesFile := by
  intro first rest h
  have hlines : lineTexts allowGit.rulesFile = [allowRuleLine ["git".toList], []] := by decide
  rw [hlines] at h
  rcases mem_cons.mp h with h | h
  · obtain ⟨rfl, rfl⟩ := allowRuleLine_inj h
    decide
  · exact absurd (mem_singleton.mp h) (allowRuleLine_ne_nil _)

theorem afterAmendment_policy {manager : ExecPolicyManager} (h : alreadyAllowed env manager.policy (first :: rest)) :
    (afterAmendment env manager (first :: rest)).policy = manager.policy := by
  rw [afterAmendment_cons]
  exact if_pos h

theorem amendmentsOk_gitAmendments : AmendmentsOk rootEnv allowGit gitAmendments := by
  have hexact (rest : List Str) (hrest : (tokensRule "git".toList [] .allow).matches ("git".toList :: rest) ≠ none) :
      AmendmentOk rootEnv allowGit.policy ("git".toList :: rest) := by
    refine fun _ => .inl ⟨tokensRule "git".toList [] .allow, matchesExact_cons.mpr ⟨by decide, ?_⟩⟩
    exact Option.isSome_iff_ne_none.mpr hrest
  obtain ⟨program, hresolve⟩ : ∃ program, resolveProgram rootEnv "/usr/bin/git".toList = some (program, "git".toList) :=
    ⟨_, rfl⟩
  -- the first three calls leave the policy as it is
  have hfirst := @afterAmendment_policy "git".toList rootEnv [] allowGit (by decide)
  have hsecond := @afterAmendment_policy "git".toList rootEnv ["status".toList] _ (by rw [hfirst]; decide)
  have hthird := @afterAmendment_policy "/usr/bin/git".toList rootEnv ["log".toList] _ (by rw [hsecond, hfirst]; decide)
  refine ⟨hexact [] (by decide), ?_, ?_, ?_, trivial⟩
  · rw [hfirst]
    exact hexact ["status".toList] (by decide)
  · rw [hsecond, hfirst]
    refine fun _ => .inr ⟨by decide, fun args => .inr fun rule hrule => ?_⟩
    obtain ⟨hrule, -⟩ := (matchesName_cons hresolve rule).mp hrule
    obtain rfl : rule = tokensRule "git".toList [] .allow := mem_singleton.mp hrule
    rfl
  · rw [hthird, hsecond, hfirst]
    exact fun h => absurd h (by decide)

/-- The rules that are skipped in memory do not matter to a command of git. -/
theorem amended_decision_eq_git : ∃ memory disk,
      (afterAmendments rootEnv allowGit gitAmendments).policy.checkWithOptions rootEnv
        ["/usr/bin/git".toList, "log".toList, "-p".toList] (fun _ => .prompt) hostOptions = some memory ∧
      (rebuiltPolicy allowGit.policy allowGit.rulesFile gitAmendments).checkWithOptions rootEnv
        ["/usr/bin/git".toList, "log".toList, "-p".toList] (fun _ => .prompt) hostOptions = some disk ∧
      memory.decision = disk.decision :=
  amended_decision_eq rootEnv allowGit.policy allowGit.rulesFile gitAmendments rulesFileOk_allowGit
    amendmentsOk_gitAmendments _ _

def gitRules : Policy where
  rulesByProgram := AList.singleton "git".toList
    [Policy.tokensRule "git".toList [] .allow, Policy.tokensRule "git".toList ["push".toList] .forbidden]

/-- The rule for the path of the program is skipped in memory, where the rules for its name allow it; on
disk it takes their place. -/
theorem amended_decision_differs : ((afterAmendments rootEnv { policy := gitRules, rulesFile := [] }
        [["/usr/bin/git".toList]]).policy.checkWithOptions rootEnv
        ["/usr/bin/git".toList, "push".toList] (fun _ => .prompt) hostOptions).map (·.decision) =
      some .forbidden ∧
    ((rebuiltPolicy gitRules [] [["/usr/bin/git".toList]]).checkWithOptions rootEnv
        ["/usr/bin/git".toList, "push".toList] (fun _ => .prompt) hostOptions).map (·.decision) =
      some .allow := by
  decide

end Dcode.ExecPolicy
