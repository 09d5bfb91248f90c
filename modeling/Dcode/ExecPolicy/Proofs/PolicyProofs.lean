import Dcode.ExecPolicy.Policy

/-!
# Proofs: which rules decide about a command

The decision about a command is the greatest one of the rules that are consulted: those of its first token
if one of them matches, else those of its program's name, else the fallback alone. Merging two policies
joins their rules, but may change which of them are consulted.
-/

namespace Dcode.ExecPolicy

open List RuleMatch AList Policy

/-! ## Rules that match -/

def MatchesExact (policy : Policy) (cmd : List Str) (rule : PrefixRule) : Prop :=
  ∃ first args, cmd = first :: args ∧ rule ∈ policy.rulesFor first ∧ (rule.matches cmd).isSome

def MatchesName (env : ProcessEnv) (policy : Policy) (cmd : List Str) (rule : PrefixRule) : Prop :=
  ∃ first args program basename, cmd = first :: args ∧ Policy.resolveProgram env first = some (program, basename) ∧
    rule ∈ policy.rulesFor basename ∧ (rule.matches (basename :: args)).isSome

def Excluded (env : ProcessEnv) (policy : Policy) (cmd : List Str) : Prop :=
  ∃ first args program basename paths, cmd = first :: args ∧
    Policy.resolveProgram env first = some (program, basename) ∧
    policy.hostExecutablesByName.lookup basename = some paths ∧ program ∉ paths

def Consulted (env : ProcessEnv) (policy : Policy) (cmd : List Str) (fallback : List Str → Decision)
    (d : Decision) : Prop :=
  (∃ rule, MatchesExact policy cmd rule ∧ rule.decision = d) ∨
  (¬ (∃ rule, MatchesExact policy cmd rule) ∧ ¬ Excluded env policy cmd ∧
    ∃ rule, MatchesName env policy cmd rule ∧ rule.decision = d) ∨
  (¬ (∃ rule, MatchesExact policy cmd rule) ∧
    (Excluded env policy cmd ∨ ¬ ∃ rule, MatchesName env policy cmd rule) ∧ fallback cmd = d)

variable {rule : PrefixRule} {cmd : List Str}

theorem isSome_matches {m : RuleMatch} (h : rule.matches cmd = some m) :
    (rule.matches cmd).isSome ∧ m.decision = rule.decision := by
  refine ⟨by rw [h]; rfl, ?_⟩
  obtain ⟨matchedPrefix, -, rfl⟩ := Option.map_eq_some_iff.mp h
  rfl

theorem decision_withResolvedProgram (program : AbsolutePathBuf) (m : RuleMatch) :
    (m.withResolvedProgram program).decision = m.decision := by
  cases m <;> rfl

variable {d : Decision}

theorem mem_map_decision_filterMap {rules : List PrefixRule} :
    d ∈ (rules.filterMap (PrefixRule.matches · cmd)).map decision ↔
      ∃ rule ∈ rules, (rule.matches cmd).isSome ∧ rule.decision = d := by
  simp only [mem_map, mem_filterMap]
  constructor
  · rintro ⟨m, ⟨rule, hrule, hm⟩, rfl⟩
    obtain ⟨hsome, hd⟩ := isSome_matches hm
    exact ⟨rule, hrule, hsome, hd.symm⟩
  · rintro ⟨rule, hrule, hsome, rfl⟩
    obtain ⟨m, hm⟩ := Option.isSome_iff_exists.mp hsome
    exact ⟨m, ⟨rule, hrule, hm⟩, (isSome_matches hm).2⟩

theorem lookup_map_getD {rules : Option (List PrefixRule)} :
    (rules.map fun rules => rules.filterMap (PrefixRule.matches · cmd)).getD [] =
      (rules.getD []).filterMap (PrefixRule.matches · cmd) := by
  cases rules <;> rfl

variable {policy : Policy}

section

variable {first : Str} {args : List Str}

theorem matchesExact_cons : MatchesExact policy (first :: args) rule ↔
    rule ∈ policy.rulesFor first ∧ (rule.matches (first :: args)).isSome := by
  simp [MatchesExact]

variable {env : ProcessEnv} {program : AbsolutePathBuf} {basename : Str}
  (h : Policy.resolveProgram env first = some (program, basename))

include h

theorem matchesName_cons (rule : PrefixRule) : MatchesName env policy (first :: args) rule ↔
    rule ∈ policy.rulesFor basename ∧ (rule.matches (basename :: args)).isSome := by
  simp [MatchesName, h]

theorem excluded_cons : Excluded env policy (first :: args) ↔
    ∃ paths, policy.hostExecutablesByName.lookup basename = some paths ∧ program ∉ paths := by
  simp [Excluded, h]

end

theorem mem_matchExactRules : d ∈ ((policy.matchExactRules cmd).getD []).map decision ↔
      ∃ rule, MatchesExact policy cmd rule ∧ rule.decision = d := by
  cases cmd with
  | nil => simp [matchExactRules, MatchesExact]
  | cons first args =>
    simp [matchExactRules, lookup_map_getD, mem_map_decision_filterMap, matchesExact_cons, and_assoc, rulesFor]

variable {env : ProcessEnv} {program : AbsolutePathBuf}

theorem any_notMem_iff {paths : Option (List AbsolutePathBuf)} :
    paths.any (program ∉ ·) ↔ ∃ p, paths = some p ∧ program ∉ p := by
  cases paths <;> simp

theorem mem_matchHostExecutableRules : d ∈ (policy.matchHostExecutableRules env cmd).map decision ↔
      ¬ Excluded env policy cmd ∧ ∃ rule, MatchesName env policy cmd rule ∧ rule.decision = d := by
  cases cmd with
  | nil => simp [matchHostExecutableRules, MatchesName]
  | cons first args =>
    unfold matchHostExecutableRules
    dsimp only
    cases hresolve : resolveProgram env first with
    | none => simp [MatchesName, hresolve]
    | some resolved =>
      obtain ⟨program, basename⟩ := resolved
      simp only [matchesName_cons hresolve, excluded_cons hresolve, rulesFor]
      cases hrules : policy.rulesByProgram.lookup basename with
      | none => simp
      | some rules =>
        have hcomp : decision ∘ withResolvedProgram program = decision := funext (decision_withResolvedProgram program)
        dsimp only
        split
        next hexcluded =>
          exact iff_of_false not_mem_nil fun h => h.1 (any_notMem_iff.mp hexcluded)
        next hexcluded =>
          rw [any_notMem_iff] at hexcluded
          rw [map_map, hcomp, mem_map_decision_filterMap]
          simp [hexcluded, and_assoc]

/-! ## The decision -/

def hostOptions : MatchOptions := { resolveHostExecutables := true }

theorem matchesForCommand_eq (env : ProcessEnv) (policy : Policy) (cmd : List Str)
    (fallback : Option (List Str → Decision)) :
    policy.matchesForCommandWithOptions env cmd fallback hostOptions =
      if (policy.matchExactRules cmd).getD [] ≠ [] then (policy.matchExactRules cmd).getD []
      else if policy.matchHostExecutableRules env cmd ≠ [] then policy.matchHostExecutableRules env cmd
      else match fallback with
        | some fallback => [.heuristicsRuleMatch cmd (fallback cmd)]
        | none => [] := by
  have hmatched : ((((policy.matchExactRules cmd).filter (· ≠ [])).orElse fun _ =>
      (some (policy.matchHostExecutableRules env cmd)).filter (· ≠ [])).getD []) =
      if (policy.matchExactRules cmd).getD [] ≠ [] then (policy.matchExactRules cmd).getD []
      else policy.matchHostExecutableRules env cmd := by
    cases policy.matchExactRules cmd with
    | none => cases policy.matchHostExecutableRules env cmd <;> rfl
    | some rules =>
      cases rules with
      | nil => cases policy.matchHostExecutableRules env cmd <;> rfl
      | cons m rules => rfl
  unfold matchesForCommandWithOptions
  simp only [hostOptions, if_true]
  rw [hmatched]
  cases hexact : (policy.matchExactRules cmd).getD [] with
  | nil =>
    cases hhost : policy.matchHostExecutableRules env cmd with
    | nil => cases fallback <;> simp
    | cons m rules => simp
  | cons m rules => simp

theorem fromMatches_isGreatest {matchedRules : List RuleMatch} (h : matchedRules ≠ []) :
    ∃ e, Evaluation.fromMatches matchedRules = some e ∧ e.matchedRules = matchedRules ∧
      IsGreatest { d | d ∈ matchedRules.map decision } e.decision := by
  unfold Evaluation.fromMatches
  cases hmax : (matchedRules.map decision).max? with
  | none =>
    rw [max?_eq_none_iff, map_eq_nil_iff] at hmax
    contradiction
  | some d =>
    obtain ⟨hmem, hle⟩ := max?_eq_some_iff.mp hmax
    exact ⟨_, rfl, rfl, hmem, fun d' hd' => hle d' hd'⟩

theorem ne_nil_iff_exists_decision {matchedRules : List RuleMatch} :
    matchedRules ≠ [] ↔ ∃ d, d ∈ matchedRules.map decision := by
  cases matchedRules <;> simp

theorem matchExactRules_ne_nil : (policy.matchExactRules cmd).getD [] ≠ [] ↔ ∃ rule, MatchesExact policy cmd rule := by
  simp only [ne_nil_iff_exists_decision, mem_matchExactRules]
  constructor
  · rintro ⟨d, rule, hrule, -⟩
    exact ⟨rule, hrule⟩
  · rintro ⟨rule, hrule⟩
    exact ⟨rule.decision, rule, hrule, rfl⟩

theorem matchHostExecutableRules_ne_nil : policy.matchHostExecutableRules env cmd ≠ [] ↔
      ¬ Excluded env policy cmd ∧ ∃ rule, MatchesName env policy cmd rule := by
  simp only [ne_nil_iff_exists_decision, mem_matchHostExecutableRules]
  constructor
  · rintro ⟨d, hex, rule, hrule, -⟩
    exact ⟨hex, rule, hrule⟩
  · rintro ⟨hex, rule, hrule⟩
    exact ⟨rule.decision, hex, rule, hrule, rfl⟩

section

variable {env : ProcessEnv} {policy : Policy} {cmd : List Str} {fallback : List Str → Decision}
  {d : Decision}

theorem consulted_of_exact (h : ∃ rule, MatchesExact policy cmd rule) :
    Consulted env policy cmd fallback d ↔ ∃ rule, MatchesExact policy cmd rule ∧ rule.decision = d := by
  simp [Consulted, h]

theorem consulted_of_name (hno : ¬ ∃ rule, MatchesExact policy cmd rule)
    (hex : ¬ Excluded env policy cmd) (h : ∃ rule, MatchesName env policy cmd rule) :
    Consulted env policy cmd fallback d ↔ ∃ rule, MatchesName env policy cmd rule ∧ rule.decision = d := by
  have hexact : ¬ ∃ rule, MatchesExact policy cmd rule ∧ rule.decision = d :=
    fun ⟨rule, hrule, _⟩ => hno ⟨rule, hrule⟩
  simp [Consulted, hexact, hno, hex, h]

theorem consulted_of_fallback (hno : ¬ ∃ rule, MatchesExact policy cmd rule)
    (h : Excluded env policy cmd ∨ ¬ ∃ rule, MatchesName env policy cmd rule) :
    Consulted env policy cmd fallback d ↔ fallback cmd = d := by
  have hexact : ¬ ∃ rule, MatchesExact policy cmd rule ∧ rule.decision = d :=
    fun ⟨rule, hrule, _⟩ => hno ⟨rule, hrule⟩
  have hname : ¬ (¬ Excluded env policy cmd ∧ ∃ rule, MatchesName env policy cmd rule ∧ rule.decision = d) := by
    rintro ⟨hex, rule, hrule, -⟩
    rcases h with h | h
    · exact hex h
    · exact h ⟨rule, hrule⟩
  simp only [Consulted, hexact, hname, hno, h, not_false_eq_true, true_and, false_or]

theorem mem_matchesForCommand : d ∈ (policy.matchesForCommandWithOptions env cmd (some fallback) hostOptions).map
      decision ↔ Consulted env policy cmd fallback d := by
  rw [matchesForCommand_eq]
  by_cases hexact : ∃ rule, MatchesExact policy cmd rule
  · rw [if_pos (matchExactRules_ne_nil.mpr hexact), mem_matchExactRules, consulted_of_exact hexact]
  · rw [if_neg fun h => hexact (matchExactRules_ne_nil.mp h)]
    by_cases hhost : ¬ Excluded env policy cmd ∧ ∃ rule, MatchesName env policy cmd rule
    · rw [if_pos (matchHostExecutableRules_ne_nil.mpr hhost), mem_matchHostExecutableRules,
        consulted_of_name hexact hhost.1 hhost.2]
      exact and_iff_right hhost.1
    · rw [if_neg fun h => hhost (matchHostExecutableRules_ne_nil.mp h),
        consulted_of_fallback hexact (by rwa [not_and_or, not_not] at hhost)]
      simp [decision, eq_comm]

end

/-- The decision about a command is the greatest one that is consulted. -/
theorem checkWithOptions_spec (env : ProcessEnv) (policy : Policy) (cmd : List Str) (fallback : List Str → Decision) :
    ∃ e, policy.checkWithOptions env cmd fallback hostOptions = some e ∧
      IsGreatest { d | Consulted env policy cmd fallback d } e.decision := by
  have hne : policy.matchesForCommandWithOptions env cmd (some fallback) hostOptions ≠ [] := by
    rw [matchesForCommand_eq]
    split
    · assumption
    · split
      · assumption
      · exact cons_ne_nil _ _
  obtain ⟨e, he, -, hgreatest⟩ := fromMatches_isGreatest hne
  simp only [mem_matchesForCommand] at hgreatest
  exact ⟨e, he, hgreatest⟩

/-! ## Merged policies -/

theorem rulesFor_insertRule (rules : AList fun _ : Str => List PrefixRule) (program k : Str)
    (rule : PrefixRule) : ((insertRule rules program rule).lookup k).getD [] =
      (rules.lookup k).getD [] ++ if k = program then [rule] else [] := by
  unfold insertRule
  by_cases hk : k = program
  · subst hk
    simp
  · rw [lookup_insert_ne hk, if_neg hk, append_nil]

theorem rulesFor_insertRules (rules : AList fun _ : Str => List PrefixRule) (program k : Str)
    (added : List PrefixRule) :
    ((added.foldl (fun rules rule => insertRule rules program rule) rules).lookup k).getD [] =
      (rules.lookup k).getD [] ++ if k = program then added else [] := by
  induction added generalizing rules with
  | nil => simp
  | cons rule added ih =>
    rw [foldl_cons, ih, rulesFor_insertRule]
    by_cases hk : k = program
    · simp [hk]
    · simp [hk]

theorem rulesFor_foldl_entries (entries : List (Sigma fun _ : Str => List PrefixRule))
    (hnodup : entries.NodupKeys) (rules : AList fun _ : Str => List PrefixRule) (k : Str) :
    ((entries.foldl (fun rules entry => entry.2.foldl
      (fun rules rule => insertRule rules entry.1 rule) rules) rules).lookup k).getD [] =
      (rules.lookup k).getD [] ++ (entries.dlookup k).getD [] := by
  induction entries generalizing rules with
  | nil => simp
  | cons entry entries ih =>
    obtain ⟨hnot, hnodup⟩ := nodupKeys_cons.mp hnodup
    rw [foldl_cons, ih hnodup, rulesFor_insertRules, append_assoc]
    by_cases hk : k = entry.1
    · subst hk
      rw [dlookup_eq_none.mpr hnot, dlookup_cons_eq]
      simp
    · rw [dlookup_cons_ne _ _ hk, if_neg hk, nil_append]

theorem rulesFor_mergeOverlay (policy overlay : Policy) (k : Str) :
    (policy.mergeOverlay overlay).rulesFor k = policy.rulesFor k ++ overlay.rulesFor k :=
  rulesFor_foldl_entries _ overlay.rulesByProgram.nodupKeys _ k

variable {overlay : Policy}

theorem matchesExact_mergeOverlay : MatchesExact (policy.mergeOverlay overlay) cmd rule ↔
      MatchesExact policy cmd rule ∨ MatchesExact overlay cmd rule := by
  unfold MatchesExact
  simp [rulesFor_mergeOverlay, or_and_right, and_or_left, exists_or]

theorem matchesName_mergeOverlay : MatchesName env (policy.mergeOverlay overlay) cmd rule ↔
      MatchesName env policy cmd rule ∨ MatchesName env overlay cmd rule := by
  unfold MatchesName
  simp [rulesFor_mergeOverlay, or_and_right, and_or_left, exists_or]

def Unlisted (env : ProcessEnv) (policy : Policy) (cmd : List Str) : Prop :=
  ∃ first args program basename, cmd = first :: args ∧ Policy.resolveProgram env first = some (program, basename) ∧
    policy.hostExecutablesByName.lookup basename = none

/-- The paths of the overlay take the place of those of the policy. -/
theorem excluded_mergeOverlay : Excluded env (policy.mergeOverlay overlay) cmd ↔
      Excluded env overlay cmd ∨ (Excluded env policy cmd ∧ Unlisted env overlay cmd) := by
  cases cmd with
  | nil => simp [Excluded]
  | cons first args =>
    cases hresolve : resolveProgram env first with
    | none => simp [Excluded, hresolve]
    | some resolved =>
      obtain ⟨program, basename⟩ := resolved
      have hunlisted : Unlisted env overlay (first :: args) ↔ overlay.hostExecutablesByName.lookup basename = none := by
        simp [Unlisted, hresolve]
      rw [excluded_cons hresolve, excluded_cons hresolve, excluded_cons hresolve, hunlisted, mergeOverlay]
      cases hlisted : overlay.hostExecutablesByName.lookup basename with
      | none =>
        rw [lookup_union_right (lookup_eq_none.mp hlisted)]
        simp
      | some paths =>
        rw [lookup_union_left (lookup_isSome.mp (by rw [hlisted]; rfl)), hlisted]
        simp

/-! ## Requirements -/

def CoversNames (env : ProcessEnv) (policy : Policy) (cmd : List Str) (d : Decision) : Prop :=
  ∀ rule, MatchesName env policy cmd rule → rule.decision ≤ d

/-- The rules of the requirements keep their effect: they match the first token; or a rule of the user for
the first token is as strict as all of them; or there is no such rule, and either the user's list of paths
does not exclude the program or the fallback is as strict. -/
def KeepsRequirements (env : ProcessEnv) (user requirements : Policy) (cmd : List Str)
    (fallback : List Str → Decision) : Prop :=
  (∃ rule, MatchesExact requirements cmd rule) ∨
  (∃ rule, MatchesExact user cmd rule ∧ CoversNames env requirements cmd rule.decision) ∨
  (¬ (∃ rule, MatchesExact user cmd rule) ∧ (¬ (Excluded env user cmd ∧ Unlisted env requirements cmd) ∨
      CoversNames env requirements cmd (fallback cmd)))

theorem matchesForCommand_none_ne_nil : policy.matchesForCommandWithOptions env cmd none hostOptions ≠ [] ↔
      (∃ rule, MatchesExact policy cmd rule) ∨
        (¬ Excluded env policy cmd ∧ ∃ rule, MatchesName env policy cmd rule) := by
  rw [matchesForCommand_eq, ← matchExactRules_ne_nil, ← matchHostExecutableRules_ne_nil]
  by_cases hexact : (policy.matchExactRules cmd).getD [] = []
  · by_cases hhost : policy.matchHostExecutableRules env cmd = []
    · simp [hhost]
    · simp [hexact]
  · simp [hexact]

section

variable {env : ProcessEnv} {user requirements : Policy} {cmd : List Str} {fallback : List Str → Decision}
  {d required : Decision}

section

variable (hexact : ¬ ∃ rule, MatchesExact requirements cmd rule)

include hexact

/-- Requirements that decide by the name of the program are covered by the decisions above theirs. -/
theorem coversNames_iff_le (hex : ¬ Excluded env requirements cmd)
    (hname : ∃ rule, MatchesName env requirements cmd rule)
    (hr : IsGreatest { d | Consulted env requirements cmd fallback d } required) :
    CoversNames env requirements cmd d ↔ required ≤ d := by
  constructor
  · intro h
    obtain ⟨top, htop, hd⟩ := (consulted_of_name hexact hex hname).mp hr.1
    rw [← hd]
    exact h top htop
  · intro h rule hrule
    exact (hr.2 ((consulted_of_name hexact hex hname).mpr ⟨rule, hrule, rfl⟩)).trans h

theorem exists_matchesExact_mergeOverlay : (∃ rule, MatchesExact (user.mergeOverlay requirements) cmd rule) ↔
      ∃ rule, MatchesExact user cmd rule := by
  simp only [matchesExact_mergeOverlay]
  constructor
  · rintro ⟨rule, h | h⟩
    · exact ⟨rule, h⟩
    · exact absurd ⟨rule, h⟩ hexact
  · rintro ⟨rule, h⟩
    exact ⟨rule, Or.inl h⟩

/-- The user's rules for the first token decide alone where the requirements have none. -/
theorem consulted_mergeOverlay_of_user (huser : ∃ rule, MatchesExact user cmd rule) :
    Consulted env (user.mergeOverlay requirements) cmd fallback d ↔
      ∃ rule, MatchesExact user cmd rule ∧ rule.decision = d := by
  rw [consulted_of_exact ((exists_matchesExact_mergeOverlay hexact).mpr huser)]
  simp only [matchesExact_mergeOverlay]
  refine exists_congr fun rule => and_congr_left fun _ => ?_
  exact or_iff_left fun h => hexact ⟨rule, h⟩

end

end

/-- When merging the user's policy with requirements that match a command keeps the decision about it at
least as strict as the requirements alone have it. -/
theorem mergeOverlay_keeps_iff (env : ProcessEnv) (user requirements : Policy) (cmd : List Str)
    (fallback : List Str → Decision)
    (hmatch : requirements.matchesForCommandWithOptions env cmd none hostOptions ≠ []) :
    ∃ merged required, (user.mergeOverlay requirements).checkWithOptions env cmd fallback hostOptions = some merged ∧
      requirements.checkWithOptions env cmd fallback hostOptions = some required ∧
      (required.decision ≤ merged.decision ↔ KeepsRequirements env user requirements cmd fallback) := by
  obtain ⟨merged, hmerged, hm⟩ :=
    checkWithOptions_spec env (user.mergeOverlay requirements) cmd fallback
  obtain ⟨required, hrequired, hr⟩ := checkWithOptions_spec env requirements cmd fallback
  refine ⟨merged, required, hmerged, hrequired, ?_⟩
  unfold KeepsRequirements
  by_cases hexact : ∃ rule, MatchesExact requirements cmd rule
  · -- the rules that decide for the requirements are consulted after the merge as well
    obtain ⟨rule, hrule, hd⟩ := (consulted_of_exact hexact).mp hr.1
    have hle : required.decision ≤ merged.decision := by
      apply hm.2
      exact Or.inl ⟨rule, matchesExact_mergeOverlay.mpr (Or.inr hrule), hd⟩
    exact iff_of_true hle (Or.inl hexact)
  · obtain ⟨hex, hname⟩ := (matchesForCommand_none_ne_nil.mp hmatch).resolve_left hexact
    have hcovers : ∀ d, CoversNames env requirements cmd d ↔ required.decision ≤ d :=
      fun d => coversNames_iff_le hexact hex hname hr
    simp only [hexact, false_or, hcovers]
    by_cases huser : ∃ rule, MatchesExact user cmd rule
    · have hconsulted := @consulted_mergeOverlay_of_user env user requirements cmd fallback
      simp only [huser, not_true_eq_false, false_and, or_false]
      constructor
      · intro hle
        obtain ⟨rule, hrule, hd⟩ := (hconsulted hexact huser).mp hm.1
        exact ⟨rule, hrule, hd ▸ hle⟩
      · rintro ⟨rule, hrule, hle⟩
        exact hle.trans (hm.2 ((hconsulted hexact huser).mpr ⟨rule, hrule, rfl⟩))
    · have hno : ¬ ∃ rule, MatchesExact (user.mergeOverlay requirements) cmd rule :=
        fun h => huser ((exists_matchesExact_mergeOverlay hexact).mp h)
      have hnone : ¬ ∃ rule, MatchesExact user cmd rule ∧ required.decision ≤ rule.decision :=
        fun ⟨rule, h, _⟩ => huser ⟨rule, h⟩
      simp only [huser, hnone, not_false_eq_true, true_and, false_or]
      by_cases hlist : Excluded env user cmd ∧ Unlisted env requirements cmd
      · -- the user's list of paths hides every rule for the name
        have hfall : fallback cmd = merged.decision := (consulted_of_fallback hno
          (Or.inl (excluded_mergeOverlay.mpr (Or.inr hlist)))).mp hm.1
        simp [hlist, hfall]
      · have hshown : ¬ Excluded env (user.mergeOverlay requirements) cmd := by
          rw [excluded_mergeOverlay]
          exact not_or.mpr ⟨hex, hlist⟩
        obtain ⟨top, htop, hd⟩ := (consulted_of_name hexact hex hname).mp hr.1
        have hle : required.decision ≤ merged.decision := by
          apply hm.2
          exact Or.inr (Or.inl ⟨hno, hshown, top, matchesName_mergeOverlay.mpr (Or.inr htop), hd⟩)
        exact iff_of_true hle (Or.inl hlist)

def rootEnv : ProcessEnv where
  currentDir := some .root
  homeDir := none

def oneRule (first : Str) (rest : List Str) (decision : Decision) : Policy where
  rulesByProgram := AList.singleton first [Policy.tokensRule first rest decision]

theorem mergeOverlay_keeps_iff_name : ∃ merged required, ((oneRule "ls".toList [] .allow).mergeOverlay
        (oneRule "git".toList ["push".toList] .forbidden)).checkWithOptions rootEnv
        ["/usr/bin/git".toList, "push".toList] (fun _ => .allow) hostOptions = some merged ∧
      (oneRule "git".toList ["push".toList] .forbidden).checkWithOptions rootEnv
        ["/usr/bin/git".toList, "push".toList] (fun _ => .allow) hostOptions = some required ∧
      (required.decision ≤ merged.decision ↔ KeepsRequirements rootEnv (oneRule "ls".toList [] .allow)
        (oneRule "git".toList ["push".toList] .forbidden) ["/usr/bin/git".toList, "push".toList]
        fun _ => .allow) :=
  mergeOverlay_keeps_iff rootEnv _ _ _ _ (by decide)

/-- A rule of the user for the path of a program takes the place of a requirement for its name. -/
theorem mergeOverlay_loosened : ((oneRule "git".toList ["push".toList] .forbidden).checkWithOptions rootEnv
        ["/usr/bin/git".toList, "push".toList] (fun _ => .prompt) hostOptions).map (·.decision) =
      some .forbidden ∧
    (((oneRule "/usr/bin/git".toList [] .allow).mergeOverlay
        (oneRule "git".toList ["push".toList] .forbidden)).checkWithOptions rootEnv
        ["/usr/bin/git".toList, "push".toList] (fun _ => .prompt) hostOptions).map (·.decision) =
      some .allow := by
  decide

end Dcode.ExecPolicy
