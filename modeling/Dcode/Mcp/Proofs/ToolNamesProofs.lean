import Dcode.Mcp.Tools
import Mathlib

/-!
# The names of MCP tools

The names the model sees are a function of the raw names alone: the order in which tools are listed does not matter. They
tell the tools apart, are made of letters, digits and underscores, and are short enough.
-/

namespace Dcode.Mcp

open List Option CallableToolCandidate CandidateNames Str Char

/-! ## Identities -/

structure RawTool.NulFree (raw : RawTool) : Prop where
  serverName : nul ∉ raw.serverName
  callableNamespace : nul ∉ raw.callableNamespace
  connectorId : nul ∉ raw.connectorId
  callableName : nul ∉ raw.callableName
  toolName : nul ∉ raw.toolName

theorem append_nul_inj {a a' b b' : Str} (ha : nul ∉ a) (ha' : nul ∉ a') (h : a ++ nul :: b = a' ++ nul :: b') :
    a = a' ∧ b = b' := by
  rcases append_eq_append_iff.mp h with ⟨m, rfl, hm⟩ | ⟨m, rfl, hm⟩
  · cases m <;> simp_all
  · cases m <;> simp_all

theorem RawTool.identity_inj {raw raw' : RawTool} (hraw : raw.NulFree) (hraw' : raw'.NulFree)
    (h : raw.identity = raw'.identity) : raw = raw' := by
  simp only [RawTool.identity, RawTool.namespaceIdentity, append_assoc, cons_append] at h
  obtain ⟨hserver, h⟩ := append_nul_inj hraw.serverName hraw'.serverName h
  obtain ⟨hspace, h⟩ := append_nul_inj hraw.callableNamespace hraw'.callableNamespace h
  obtain ⟨hconnector, h⟩ := append_nul_inj hraw.connectorId hraw'.connectorId h
  obtain ⟨hname, htool⟩ := append_nul_inj hraw.callableName hraw'.callableName h
  cases raw
  simp_all

/-! ## Plain names -/

def PlainChar (c : Char) : Prop := c.isAlphanum ∨ c = '_'

def Plain (s : Str) : Prop := ∀ c ∈ s, PlainChar c

variable {s : Str}

theorem plain_append {t : Str} : Plain (s ++ t) ↔ Plain s ∧ Plain t := forall_mem_append

theorem Plain.take (h : Plain s) (n : Nat) : Plain (s.take n) := fun c hc => h c (mem_of_mem_take hc)

theorem utf8Size_of_plainChar {c : Char} (h : PlainChar c) : c.utf8Size = 1 := by
  have hlow : c.val.toNat ≤ 127 := by
    rcases h with h | rfl
    · simp only [isAlphanum, isAlpha, isUpper, isLower, isDigit, Bool.or_eq_true, Bool.and_eq_true,
        decide_eq_true_eq, UInt32.le_iff_toNat_le] at h
      have hZ : 'Z'.val.toNat = 90 := rfl
      have hz : 'z'.val.toNat = 122 := rfl
      have h9 : '9'.val.toNat = 57 := rfl
      omega
    · decide
  exact utf8Size_eq_one_iff.mpr hlow

theorem Plain.byteLen (h : Plain s) : Str.byteLen s = s.length := by
  have hsizes : s.map Char.utf8Size = s.map fun _ => 1 := map_congr_left fun c hc => utf8Size_of_plainChar (h c hc)
  rw [Str.byteLen, hsizes, map_const', sum_replicate, smul_eq_mul, mul_one]

theorem plain_sanitizeResponsesApiToolName (name : Str) : Plain (sanitizeResponsesApiToolName name) := by
  rw [sanitizeResponsesApiToolName]
  split
  next =>
    intro c hc
    exact .inr (mem_singleton.mp hc)
  next =>
    intro c hc
    obtain ⟨d, -, rfl⟩ := mem_map.mp hc
    split
    next h =>
      rw [Bool.or_eq_true, beq_iff_eq] at h
      exact h
    next => exact .inr rfl

theorem plain_of_all (h : s.all fun c => c.isAlphanum || c == '_') : Plain s := by
  intro c hc
  have hplain := all_eq_true.mp h c hc
  rw [Bool.or_eq_true, beq_iff_eq] at hplain
  exact hplain

theorem plain_delimiter : Plain mcpToolNameDelimiter := plain_of_all (by decide)

theorem plain_legacyMcpToolNamePrefix : Plain legacyMcpToolNamePrefix := plain_of_all (by decide)

theorem plain_callableNamespaceWithPrefix (h : Plain s) (b : Bool) : Plain (callableNamespaceWithPrefix s b) := by
  rw [callableNamespaceWithPrefix]
  split
  next => exact h
  next => exact plain_append.mpr ⟨plain_legacyMcpToolNamePrefix, h⟩

section Hash

variable (sha1 : Sha1Hex)

theorem plain_callableNameHashSuffix (id : Str) : Plain (callableNameHashSuffix sha1 id) := by
  intro c hc
  rcases mem_cons.mp hc with rfl | hc
  · exact .inr rfl
  · exact .inl (sha1.isAlphanum_hex id c (mem_of_mem_take hc))

theorem length_callableNameHashSuffix (id : Str) : (callableNameHashSuffix sha1 id).length = 13 := by
  rw [callableNameHashSuffix, length_cons, length_take, sha1.length_hex]
  rfl

theorem plain_appendHashSuffix (h : Plain s) (id : Str) : Plain (appendHashSuffix sha1 s id) :=
  plain_append.mpr ⟨h, plain_callableNameHashSuffix sha1 id⟩

theorem plain_appendNamespaceHashSuffix (h : Plain s) (id : Str) : Plain (appendNamespaceHashSuffix sha1 s id) := by
  rw [appendNamespaceHashSuffix]
  split
  next stem hstem =>
    rw [stripSuffix, isSuffixOf?_eq_some_iff_append_eq] at hstem
    have hstem' : Plain stem := (plain_append.mp (hstem ▸ h)).1
    exact plain_append.mpr ⟨plain_append.mpr ⟨hstem', plain_callableNameHashSuffix sha1 id⟩, plain_delimiter⟩
  next => exact plain_appendHashSuffix sha1 h id

structure Fits (parts : Str × Str) : Prop where
  plain : Plain (parts.1 ++ parts.2)
  short : Str.byteLen (parts.1 ++ parts.2) + Str.byteLen mcpToolNameDelimiter ≤ maxToolNameLength

theorem byteLen_delimiter : byteLen mcpToolNameDelimiter = 2 := by decide

theorem fits_of_length {parts : Str × Str} (hplain : Plain (parts.1 ++ parts.2)) (h : parts.1.length + parts.2.length ≤ 62) :
    Fits parts := by
  refine ⟨hplain, ?_⟩
  rw [hplain.byteLen, byteLen_delimiter, length_append, maxToolNameLength]
  omega

variable {t : Str}

theorem fits_attemptParts (hs : Plain s) (ht : Plain t) (id : Str) (attempt : Nat) :
    Fits (attemptParts sha1 s t id (byteLen mcpToolNameDelimiter) attempt) := by
  have hsuffix := plain_callableNameHashSuffix sha1 (hashInput id attempt)
  have hlen := length_callableNameHashSuffix sha1 (hashInput id attempt)
  rw [attemptParts, fitCallablePartsWithHash]
  simp only [hs.byteLen, hsuffix.byteLen, byteLen_delimiter, maxToolNameLength]
  split
  next hroom =>
    refine fits_of_length (plain_append.mpr ⟨hs, plain_append.mpr ⟨ht.take _, hsuffix⟩⟩) ?_
    show s.length + (t.take _ ++ callableNameHashSuffix sha1 (hashInput id attempt)).length ≤ 62
    rw [length_append, length_take]
    omega
  next =>
    refine fits_of_length (plain_append.mpr ⟨hs.take _, hsuffix⟩) ?_
    rw [length_take, hlen]
    omega

/-! ## Unused names -/

structure Unused (used : List Str) (r : (Str × Str) × List Str) : Prop where
  unused : r.1.1 ++ r.1.2 ∉ used
  noted : r.2 = (r.1.1 ++ r.1.2) :: used
  fits : Fits r.1

variable {sha1}

variable {id : Str} {used : List Str}

theorem unused_of_retryCallableParts (hs : Plain s) (ht : Plain t) {left attempt : Nat} {r : (Str × Str) × List Str}
    (h : retryCallableParts sha1 s t id used (byteLen mcpToolNameDelimiter) left attempt = some r) :
    Unused used r := by
  induction left generalizing attempt with
  | zero => cases h
  | succ left ih =>
    rw [retryCallableParts] at h
    split at h
    next => exact ih h
    next hfresh =>
      obtain rfl := some.inj h
      exact ⟨hfresh, rfl, fits_attemptParts sha1 hs ht id attempt⟩

theorem unused_of_uniqueCallableParts (hs : Plain s) (ht : Plain t) {r : (Str × Str) × List Str}
    (h : uniqueCallableParts sha1 s t id used (byteLen mcpToolNameDelimiter) = some r) : Unused used r := by
  rw [uniqueCallableParts] at h
  split at h
  next hfirst =>
    obtain rfl := some.inj h
    exact ⟨hfirst.2, rfl, plain_append.mpr ⟨hs, ht⟩, hfirst.1⟩
  next => exact unused_of_retryCallableParts hs ht h

def HasRetry (sha1 : Sha1Hex) (used : List Str) (c : CandidateNames) : Prop :=
  ∃ attempt < attemptCount,
    let parts := attemptParts sha1 c.callableNamespace c.callableName c.rawToolIdentity (Str.byteLen mcpToolNameDelimiter) attempt
    parts.1 ++ parts.2 ∉ used

theorem exists_retryCallableParts {reserved left attempt n : Nat} (hle : attempt ≤ n) (hlt : n < attempt + left)
    (hn : (attemptParts sha1 s t id reserved n).1 ++ (attemptParts sha1 s t id reserved n).2 ∉ used) :
    ∃ r, retryCallableParts sha1 s t id used reserved left attempt = some r := by
  induction left generalizing attempt with
  | zero => omega
  | succ left ih =>
    rw [retryCallableParts]
    split
    next hused =>
      have hne : attempt ≠ n := by
        rintro rfl
        exact hn hused
      exact ih (by omega) (by omega)
    next => exact ⟨_, rfl⟩

theorem HasRetry.exists_uniqueCallableParts {c : CandidateNames} (h : HasRetry sha1 used c) :
    ∃ r, uniqueCallableParts sha1 c.callableNamespace c.callableName c.rawToolIdentity used
      (byteLen mcpToolNameDelimiter) = some r := by
  obtain ⟨n, hlt, hn⟩ := h
  rw [uniqueCallableParts]
  split
  next => exact ⟨_, rfl⟩
  next => exact exists_retryCallableParts (Nat.zero_le n) (by omega) hn

end Hash

/-! ## Naming in order -/

section InOrder

variable {P : Type} {sha1 : Sha1Hex}

def nameParts (sha1 : Sha1Hex) : List Str → List CandidateNames → Option (List (Str × Str))
  | _, [] => some []
  | used, c :: names => do
    let (parts, used) ← uniqueCallableParts sha1 c.callableNamespace c.callableName c.rawToolIdentity used
      (Str.byteLen mcpToolNameDelimiter)
    let rest ← nameParts sha1 used names
    return parts :: rest

/-- Each candidate has a retry with unused names when its turn comes. -/
def HasRetries (sha1 : Sha1Hex) : List Str → List CandidateNames → Prop
  | _, [] => True
  | used, c :: names => HasRetry sha1 used c ∧
    ∀ r, uniqueCallableParts sha1 c.callableNamespace c.callableName c.rawToolIdentity used
      (Str.byteLen mcpToolNameDelimiter) = some r → HasRetries sha1 r.2 names

theorem nameTools_eq (used : List Str) (candidates : List (CallableToolCandidate P)) : nameTools sha1 used candidates =
      (nameParts sha1 used (candidates.map toCandidateNames)).map fun parts =>
        zipWith (fun c p => c.tool.named p) candidates parts := by
  induction candidates generalizing used with
  | nil => rfl
  | cons c candidates ih =>
    rw [nameTools, map_cons, nameParts]
    cases uniqueCallableParts sha1 c.callableNamespace c.callableName c.rawToolIdentity used
        (byteLen mcpToolNameDelimiter) with
    | none => rfl
    | some r =>
      simp only [bind_eq_bind, bind_some, ih]
      cases nameParts sha1 r.2 (candidates.map toCandidateNames) <;> rfl

theorem HasRetries.exists_nameParts {used : List Str} {names : List CandidateNames} (h : HasRetries sha1 used names) :
    ∃ parts, nameParts sha1 used names = some parts := by
  induction names generalizing used with
  | nil => exact ⟨[], rfl⟩
  | cons c names ih =>
    obtain ⟨hretry, hrest⟩ := h
    obtain ⟨r, hr⟩ := hretry.exists_uniqueCallableParts
    obtain ⟨parts, hparts⟩ := ih (hrest r hr)
    refine ⟨r.1 :: parts, ?_⟩
    simp only [nameParts, hr, hparts, bind_eq_bind, bind_some]
    rfl

def CandidateNames.IsPlain (c : CandidateNames) : Prop := Plain c.callableNamespace ∧ Plain c.callableName

/-- Names given in order fit, are unused before and differ from each other. -/
theorem nameParts_spec {used : List Str} {names : List CandidateNames} {parts : List (Str × Str)}
    (hplain : ∀ c ∈ names, c.IsPlain) (h : nameParts sha1 used names = some parts) :
    parts.length = names.length ∧ (∀ p ∈ parts, Fits p ∧ p.1 ++ p.2 ∉ used) ∧
      (parts.map fun p => p.1 ++ p.2).Nodup := by
  induction names generalizing used parts with
  | nil =>
    obtain rfl := some.inj h
    exact ⟨rfl, fun p hp => absurd hp not_mem_nil, nodup_nil⟩
  | cons c names ih =>
    simp only [nameParts, bind_eq_bind, bind_eq_some_iff] at h
    obtain ⟨r, hr, rest, hrest, h⟩ := h
    obtain rfl := some.inj h
    obtain ⟨hspace, hname⟩ := hplain c mem_cons_self
    obtain ⟨hunused, hnoted, hfits⟩ := unused_of_uniqueCallableParts hspace hname hr
    obtain ⟨hlength, hmem, hnodup⟩ := ih (fun c hc => hplain c (mem_cons_of_mem _ hc)) hrest
    refine ⟨congrArg (· + 1) hlength, ?_, ?_⟩
    · intro p hp
      rcases mem_cons.mp hp with rfl | hp
      · exact ⟨hfits, hunused⟩
      · obtain ⟨hpfits, hpunused⟩ := hmem p hp
        rw [hnoted] at hpunused
        exact ⟨hpfits, fun hused => hpunused (mem_cons_of_mem _ hused)⟩
    · rw [map_cons, nodup_cons]
      refine ⟨fun hdup => ?_, hnodup⟩
      obtain ⟨p, hp, heq⟩ := mem_map.mp hdup
      have hpunused := (hmem p hp).2
      rw [hnoted, heq] at hpunused
      exact hpunused mem_cons_self

end InOrder

/-! ## Candidates -/

section Candidates

variable {P : Type} (sha1 : Sha1Hex) (prefixed : Bool) (servers : List Str)

structure Distinct (tools distinct : List (ToolInfo P)) : Prop where
  mem : ∀ tool ∈ distinct, tool ∈ tools
  nodup : (distinct.map ToolInfo.raw).Nodup
  covers : ∀ tool ∈ tools, tool.raw ∈ distinct.map ToolInfo.raw

variable {tools : List (ToolInfo P)}

theorem mem_collectCandidates {seen : List Str} {c : CallableToolCandidate P}
    (h : c ∈ collectCandidates prefixed servers seen tools) :
    c.tool ∈ tools ∧ c.tool.raw.identity ∉ seen ∧ c.toCandidateNames = candidateNames prefixed servers c.tool.raw := by
  induction tools generalizing seen with
  | nil => cases h
  | cons tool tools ih =>
    rw [collectCandidates] at h
    split at h
    next =>
      obtain ⟨hmem, hseen, hnames⟩ := ih h
      exact ⟨mem_cons_of_mem _ hmem, hseen, hnames⟩
    next hfresh =>
      rcases mem_cons.mp h with rfl | h
      · exact ⟨mem_cons_self, hfresh, rfl⟩
      · obtain ⟨hmem, hseen, hnames⟩ := ih h
        exact ⟨mem_cons_of_mem _ hmem, fun h => hseen (mem_cons_of_mem _ h), hnames⟩

theorem nodup_collectCandidates (seen : List Str) (tools : List (ToolInfo P)) :
    ((collectCandidates prefixed servers seen tools).map fun c => c.tool.raw.identity).Nodup := by
  induction tools generalizing seen with
  | nil => exact nodup_nil
  | cons tool tools ih =>
    rw [collectCandidates]
    split
    next => exact ih seen
    next =>
      rw [map_cons, nodup_cons]
      refine ⟨fun hdup => ?_, ih _⟩
      obtain ⟨c, hc, heq⟩ := mem_map.mp hdup
      exact (mem_collectCandidates _ _ hc).2.1 (heq ▸ mem_cons_self)

theorem exists_collectCandidates {seen : List Str} {tool : ToolInfo P} (h : tool ∈ tools)
    (hseen : tool.raw.identity ∉ seen) :
    ∃ c ∈ collectCandidates prefixed servers seen tools, c.tool.raw.identity = tool.raw.identity := by
  induction tools generalizing seen with
  | nil => cases h
  | cons first tools ih =>
    rw [collectCandidates]
    by_cases hfirst : first.raw.identity = tool.raw.identity
    · rw [if_neg (hfirst ▸ hseen)]
      exact ⟨_, mem_cons_self, hfirst⟩
    · have htail : tool ∈ tools := by
        rcases mem_cons.mp h with rfl | h
        · exact absurd rfl hfirst
        · exact h
      split
      next => exact ih htail hseen
      next =>
        have hseen' : tool.raw.identity ∉ first.raw.identity :: seen := by
          rw [mem_cons, not_or]
          exact ⟨Ne.symm hfirst, hseen⟩
        obtain ⟨c, hc, heq⟩ := ih htail hseen'
        exact ⟨c, mem_cons_of_mem _ hc, heq⟩

def collectNames (tools : List (ToolInfo P)) : List CandidateNames :=
  (collectCandidates prefixed servers [] tools).map CallableToolCandidate.toCandidateNames

theorem mem_collectNames (hnul : ∀ tool ∈ tools, tool.raw.NulFree) {names : CandidateNames} :
    names ∈ collectNames prefixed servers tools ↔ ∃ tool ∈ tools, names = candidateNames prefixed servers tool.raw := by
  constructor
  · intro h
    obtain ⟨c, hc, rfl⟩ := mem_map.mp h
    obtain ⟨hmem, -, hnames⟩ := mem_collectCandidates _ _ hc
    exact ⟨c.tool, hmem, hnames⟩
  · rintro ⟨tool, htool, rfl⟩
    obtain ⟨c, hc, heq⟩ := exists_collectCandidates prefixed servers htool not_mem_nil
    obtain ⟨hmem, -, hnames⟩ := mem_collectCandidates _ _ hc
    have hraw : c.tool.raw = tool.raw := RawTool.identity_inj (hnul _ hmem) (hnul _ htool) heq
    exact mem_map.mpr ⟨c, hc, hnames.trans (congrArg _ hraw)⟩

theorem nodup_identities_collectNames (tools : List (ToolInfo P)) :
    ((collectNames prefixed servers tools).map rawToolIdentity).Nodup := by
  have hids : (collectNames prefixed servers tools).map rawToolIdentity =
      (collectCandidates prefixed servers [] tools).map fun c => c.tool.raw.identity := by
    rw [collectNames, List.map_map]
    refine map_congr_left fun c hc => ?_
    show c.toCandidateNames.rawToolIdentity = c.tool.raw.identity
    rw [(mem_collectCandidates _ _ hc).2.2]
    rfl
  rw [hids]
  exact nodup_collectCandidates _ _ [] tools

theorem collectNames_perm {tools' : List (ToolInfo P)} (hnul : ∀ tool ∈ tools, tool.raw.NulFree)
    (hperm : tools'.Perm tools) :
    (collectNames prefixed servers tools').Perm (collectNames prefixed servers tools) := by
  have hnul' : ∀ tool ∈ tools', tool.raw.NulFree := fun tool htool => hnul tool (hperm.mem_iff.mp htool)
  refine (perm_ext_iff_of_nodup (Nodup.of_map _ (nodup_identities_collectNames _ _ tools'))
    (Nodup.of_map _ (nodup_identities_collectNames _ _ tools))).mpr fun names => ?_
  rw [mem_collectNames _ _ hnul, mem_collectNames _ _ hnul']
  exact exists_congr fun tool => and_congr_left fun _ => hperm.mem_iff

theorem collides_perm {B : Type} [DecidableEq B] {l l' : List (B × Str)} (h : l.Perm l') (base : B) :
    collides l base = collides l' base := by
  rw [collides, collides, ((h.filter _).map Prod.snd).dedup.length_eq]

/-- A change of names that looks at the names of all. -/
structure Renaming (rename : List CandidateNames → CandidateNames → CandidateNames) : Prop where
  perm : ∀ {names names' : List CandidateNames}, names.Perm names' → ∀ c, rename names c = rename names' c
  identity : ∀ names c, (rename names c).rawToolIdentity = c.rawToolIdentity
  plain : ∀ names c, c.IsPlain → (rename names c).IsPlain

theorem renaming_ite {B : Type} [DecidableEq B] {id : CandidateNames → B × Str} {base : CandidateNames → B}
    {f : CandidateNames → CandidateNames} (hid : ∀ c, (f c).rawToolIdentity = c.rawToolIdentity)
    (hplain : ∀ c, c.IsPlain → (f c).IsPlain) :
    Renaming fun names c => if collides (names.map id) (base c) then f c else c := by
  refine ⟨?_, ?_, ?_⟩
  · intro names names' h c
    rw [collides_perm (h.map id)]
  · intro names c
    split
    next => exact hid c
    next => rfl
  · intro names c hc
    split
    next => exact hplain c hc
    next => exact hc

theorem renaming_hashNamespace : Renaming (hashNamespace sha1) :=
  renaming_ite (fun _ => rfl) fun _ hc => ⟨plain_appendNamespaceHashSuffix sha1 hc.1 _, hc.2⟩

theorem renaming_hashName : Renaming (hashName sha1) :=
  renaming_ite (fun _ => rfl) fun _ hc => ⟨hc.1, plain_appendHashSuffix sha1 hc.2 _⟩

namespace Renaming

variable {rename : List CandidateNames → CandidateNames → CandidateNames} (hrename : Renaming rename)
include hrename

theorem map_perm {names names' : List CandidateNames} (h : names.Perm names') :
    (names.map (rename names)).Perm (names'.map (rename names')) := by
  have heq : rename names = rename names' := funext (hrename.perm h)
  rw [heq]
  exact h.map _

theorem map_identities (names : List CandidateNames) :
    (names.map (rename names)).map rawToolIdentity = names.map rawToolIdentity := by
  rw [List.map_map]
  exact map_congr_left fun c _ => hrename.identity names c

theorem map_isPlain {names : List CandidateNames} (h : ∀ c ∈ names, c.IsPlain) :
    ∀ c ∈ names.map (rename names), c.IsPlain := by
  intro c hc
  obtain ⟨d, hd, rfl⟩ := mem_map.mp hc
  exact hrename.plain names d (h d hd)

end Renaming

def ByIdentity (left right : CandidateNames) : Prop := left.rawToolIdentity ≤ right.rawToolIdentity

instance : DecidableRel ByIdentity := fun left right =>
  inferInstanceAs (Decidable (left.rawToolIdentity ≤ right.rawToolIdentity))

instance : Std.Total ByIdentity := ⟨fun left right => le_total left.rawToolIdentity right.rawToolIdentity⟩

instance : IsTrans CandidateNames ByIdentity := ⟨fun _ _ _ h h' => le_trans h h'⟩

def hashedNames (tools : List (ToolInfo P)) : List CandidateNames :=
  let names := collectNames prefixed servers tools
  let names := names.map (hashNamespace sha1 names)
  names.map (hashName sha1 names)

def sortedNames (tools : List (ToolInfo P)) : List CandidateNames :=
  (hashedNames sha1 prefixed servers tools).insertionSort ByIdentity

theorem map_renameAll (rename : List CandidateNames → CandidateNames → CandidateNames)
    (candidates : List (CallableToolCandidate P)) :
    (renameAll rename candidates).map toCandidateNames = (candidates.map toCandidateNames).map
        (rename (candidates.map toCandidateNames)) := by
  rw [renameAll, List.map_map, List.map_map]
  rfl

theorem map_tool_renameAll (rename : List CandidateNames → CandidateNames → CandidateNames)
    (candidates : List (CallableToolCandidate P)) :
    (renameAll rename candidates).map tool = candidates.map tool := by
  rw [renameAll, List.map_map]
  rfl

theorem map_sortedCandidates (tools : List (ToolInfo P)) :
    (sortedCandidates sha1 prefixed servers tools).map toCandidateNames = sortedNames sha1 prefixed servers tools := by
  have hsort := map_insertionSort
    (fun left right : CallableToolCandidate P => left.rawToolIdentity ≤ right.rawToolIdentity) ByIdentity
    toCandidateNames
    (renameAll (hashName sha1) (renameAll (hashNamespace sha1)
      (collectCandidates prefixed servers [] tools))) fun _ _ _ _ => Iff.rfl
  rw [map_renameAll, map_renameAll] at hsort
  exact hsort

theorem nodup_identities_sortedNames (tools : List (ToolInfo P)) :
    ((sortedNames sha1 prefixed servers tools).map rawToolIdentity).Nodup := by
  have hperm := (perm_insertionSort ByIdentity (hashedNames sha1 prefixed servers tools)).map rawToolIdentity
  rw [sortedNames, hperm.nodup_iff, hashedNames, (renaming_hashName sha1).map_identities,
    (renaming_hashNamespace sha1).map_identities]
  exact nodup_identities_collectNames _ _ tools

/-- The candidates are in the same order, whatever the order of the tools. -/
theorem sortedNames_perm {tools' : List (ToolInfo P)} (hnul : ∀ tool ∈ tools, tool.raw.NulFree)
    (hperm : tools'.Perm tools) :
    sortedNames sha1 prefixed servers tools' = sortedNames sha1 prefixed servers tools := by
  have hcollect := collectNames_perm prefixed servers hnul hperm
  have hhashed : (hashedNames sha1 prefixed servers tools').Perm (hashedNames sha1 prefixed servers tools) :=
    (renaming_hashName sha1).map_perm ((renaming_hashNamespace sha1).map_perm hcollect)
  have hsorted : (sortedNames sha1 prefixed servers tools').Perm (sortedNames sha1 prefixed servers tools) :=
    (perm_insertionSort ByIdentity _).trans (hhashed.trans (perm_insertionSort ByIdentity _).symm)
  refine hsorted.eq_of_pairwise ?_ (pairwise_insertionSort ByIdentity _) (pairwise_insertionSort ByIdentity _)
  intro c c' hc hc' hle hle'
  exact inj_on_of_nodup_map (nodup_identities_sortedNames sha1 _ _ tools) (hsorted.mem_iff.mp hc) hc' (le_antisymm hle hle')

theorem isPlain_sortedNames (tools : List (ToolInfo P)) : ∀ c ∈ sortedNames sha1 prefixed servers tools, c.IsPlain := by
  have hcollect : ∀ c ∈ collectNames prefixed servers tools, c.IsPlain := by
    intro c hc
    obtain ⟨d, hd, rfl⟩ := mem_map.mp hc
    rw [(mem_collectCandidates _ _ hd).2.2]
    exact ⟨plain_callableNamespaceWithPrefix (plain_sanitizeResponsesApiToolName _) _, plain_sanitizeResponsesApiToolName _⟩
  intro c hc
  exact (renaming_hashName sha1).map_isPlain ((renaming_hashNamespace sha1).map_isPlain hcollect) c
    ((mem_insertionSort ByIdentity).mp hc)

/-! ## The sorted candidates as tools -/

theorem map_tool_sortedCandidates_perm (tools : List (ToolInfo P)) :
    ((sortedCandidates sha1 prefixed servers tools).map tool).Perm
      ((collectCandidates prefixed servers [] tools).map tool) := by
  have hperm := (perm_insertionSort
    (fun left right : CallableToolCandidate P => left.rawToolIdentity ≤ right.rawToolIdentity)
    (renameAll (hashName sha1) (renameAll (hashNamespace sha1) (collectCandidates prefixed servers [] tools)))).map tool
  rw [map_tool_renameAll, map_tool_renameAll] at hperm
  exact hperm

theorem distinct_sortedCandidates (hnul : ∀ tool ∈ tools, tool.raw.NulFree) :
    Distinct tools ((sortedCandidates sha1 prefixed servers tools).map tool) := by
  have hperm := map_tool_sortedCandidates_perm sha1 prefixed servers tools
  refine ⟨?_, ?_, ?_⟩
  · intro tool htool
    obtain ⟨c, hc, rfl⟩ := List.mem_map.mp (hperm.mem_iff.mp htool)
    exact (mem_collectCandidates _ _ hc).1
  · rw [(hperm.map ToolInfo.raw).nodup_iff]
    refine Nodup.of_map RawTool.identity ?_
    rw [List.map_map, List.map_map]
    exact nodup_collectCandidates _ _ [] tools
  · intro tool htool
    obtain ⟨c, hc, heq⟩ := exists_collectCandidates prefixed servers htool not_mem_nil
    have hraw : c.tool.raw = tool.raw := RawTool.identity_inj (hnul _ (mem_collectCandidates _ _ hc).1) (hnul _ htool) heq
    rw [(hperm.map ToolInfo.raw).mem_iff, ← hraw]
    exact List.mem_map_of_mem (List.mem_map_of_mem hc)

theorem identity_renameAll {rename : List CandidateNames → CandidateNames → CandidateNames} (hrename : Renaming rename)
    {candidates : List (CallableToolCandidate P)} (h : ∀ c ∈ candidates, c.rawToolIdentity = c.tool.raw.identity) :
    ∀ c ∈ renameAll rename candidates, c.rawToolIdentity = c.tool.raw.identity := by
  intro c hc
  obtain ⟨d, hd, rfl⟩ := mem_map.mp hc
  exact (hrename.identity _ _).trans (h d hd)

theorem identity_sortedCandidates (tools : List (ToolInfo P)) : ∀ c ∈ sortedCandidates sha1 prefixed servers tools,
      c.rawToolIdentity = c.tool.raw.identity := by
  have hcollect : ∀ c ∈ collectCandidates prefixed servers [] tools, c.rawToolIdentity = c.tool.raw.identity := by
    intro c hc
    rw [(mem_collectCandidates _ _ hc).2.2]
    rfl
  intro c hc
  exact identity_renameAll (renaming_hashName sha1) (identity_renameAll (renaming_hashNamespace sha1) hcollect) c
    ((mem_insertionSort _).mp hc)

end Candidates

/-! ## The names of the raw tools -/

section Main

variable {P : Type}

theorem exists_map_eq {K V : Type} [DecidableEq K] [Inhabited V] {ids : List K} {vs : List V} (hids : ids.Nodup)
    (hlength : vs.length = ids.length) : ∃ f : K → V, ids.map f = vs := by
  refine ⟨fun i => vs.getD (ids.idxOf i) default, ext_getElem ?_ fun n hn hn' => ?_⟩
  · rw [length_map, hlength]
  · rw [getElem_map, hids.idxOf_getElem, getD_eq_getElem _ _ hn']

/-- For tools without the separator in their raw names, each with a retry that is unused when its turn comes: every raw tool
is returned once, under names that are a function of its raw names whatever the order of the tools, tell the tools apart and
fit the API. -/
theorem normalize_names_raw_tools (sha1 : Sha1Hex) (prefixMcpToolNames : Bool) (nonPrefixedMcpToolServers : List Str)
    (tools : List (ToolInfo P)) (hnul : ∀ tool ∈ tools, tool.raw.NulFree)
    (hretry : HasRetries sha1 [] ((sortedCandidates sha1 prefixMcpToolNames nonPrefixedMcpToolServers tools).map
      toCandidateNames)) :
    ∃ names : RawTool → Str × Str,
      (∀ tools' : List (ToolInfo P), tools'.Perm tools → ∃ distinct, Distinct tools' distinct ∧
        normalizeToolsForModelWithPrefix sha1 prefixMcpToolNames nonPrefixedMcpToolServers tools' =
          some (distinct.map fun tool => tool.named (names tool.raw))) ∧
      (∀ tool ∈ tools, ∀ tool' ∈ tools,
        (names tool.raw).1 ++ (names tool.raw).2 = (names tool'.raw).1 ++ (names tool'.raw).2 → tool.raw = tool'.raw) ∧
      ∀ tool ∈ tools, Fits (names tool.raw) := by
  obtain ⟨parts, hparts⟩ := hretry.exists_nameParts
  rw [map_sortedCandidates] at hparts
  set sorted := sortedNames sha1 prefixMcpToolNames nonPrefixedMcpToolServers tools with hsorted
  obtain ⟨hlength, hfits, hnodup⟩ := nameParts_spec (isPlain_sortedNames sha1 _ _ tools) hparts
  have hids : (sorted.map rawToolIdentity).Nodup := nodup_identities_sortedNames sha1 _ _ tools
  obtain ⟨partsOf, hmap⟩ := exists_map_eq hids (hlength.trans (length_map _).symm)
  -- The identities of the tools are those of the candidates.
  have hmem : ∀ tool ∈ tools, tool.raw.identity ∈ sorted.map rawToolIdentity := by
    intro tool htool
    obtain ⟨distinct, -, hcovers⟩ := distinct_sortedCandidates sha1 _ _ hnul
    obtain ⟨t, ht, heq⟩ := List.mem_map.mp (hcovers tool htool)
    obtain ⟨c, hc, rfl⟩ := List.mem_map.mp ht
    rw [hsorted, ← map_sortedCandidates, List.map_map, ← heq, ← identity_sortedCandidates sha1 _ _ tools c hc]
    exact List.mem_map_of_mem hc
  refine ⟨fun raw => partsOf raw.identity, ?_, ?_, ?_⟩
  · intro tools' hperm
    have hnul' : ∀ tool ∈ tools', tool.raw.NulFree := fun tool htool => hnul tool (hperm.mem_iff.mp htool)
    refine ⟨_, distinct_sortedCandidates sha1 prefixMcpToolNames nonPrefixedMcpToolServers hnul', ?_⟩
    have hnames := map_sortedCandidates sha1 prefixMcpToolNames nonPrefixedMcpToolServers tools'
    rw [sortedNames_perm sha1 _ _ hnul hperm, ← hsorted] at hnames
    have hcandidates := identity_sortedCandidates sha1 prefixMcpToolNames nonPrefixedMcpToolServers tools'
    rw [normalizeToolsForModelWithPrefix]
    set candidates := sortedCandidates sha1 prefixMcpToolNames nonPrefixedMcpToolServers tools'
    have hids' : candidates.map (fun c => partsOf c.tool.raw.identity) = parts := by
      refine Eq.trans ?_ hmap
      rw [← congrArg (List.map rawToolIdentity) hnames, List.map_map, List.map_map]
      refine map_congr_left fun c hc => ?_
      rw [← hcandidates c hc]
      rfl
    rw [nameTools_eq, hnames, hparts, map_some, List.map_map]
    nth_rewrite 1 [← hids']
    rw [zipWith_map_right, zipWith_self]
    rfl
  · intro tool htool tool' htool' heq
    rw [← hmap, List.map_map] at hnodup
    exact RawTool.identity_inj (hnul tool htool) (hnul tool' htool')
      (inj_on_of_nodup_map hnodup (hmem tool htool) (hmem tool' htool') heq)
  · intro tool htool
    have hpart := List.mem_map_of_mem (f := partsOf) (hmem tool htool)
    rw [hmap] at hpart
    exact (hfits _ hpart).1

end Main

/-! ## Two tools that are sanitised to one name -/

def docsTool (name : Str) : ToolInfo Unit where
  serverName := "docs".toList
  callableName := name
  callableNamespace := "docs".toList
  toolName := name
  connectorId := none
  rest := ()

def dashTool : ToolInfo Unit := docsTool "a-b".toList

def underscoreTool : ToolInfo Unit := docsTool "a_b".toList

/-- The digests of the identities of the two tools. -/
def docsDigest (identity : Str) : Str :=
  if identity = dashTool.raw.identity then "920b6f18f27b6a71c0c2d36265594b5bccfa8287".toList
  else if identity = underscoreTool.raw.identity then "ad9cfbd56676d90aae50d5ca5fd32b03f0cbecc5".toList
  else List.replicate 40 '0'

theorem docsDigest_spec (identity : Str) : (docsDigest identity).length = 40 ∧ (docsDigest identity).all Char.isAlphanum := by
  unfold docsDigest
  split
  · exact ⟨rfl, rfl⟩
  · split <;> exact ⟨rfl, rfl⟩

def docsSha1 : Sha1Hex where
  hex := docsDigest
  length_hex identity := (docsDigest_spec identity).1
  isAlphanum_hex identity := all_eq_true.mp (docsDigest_spec identity).2

theorem nulFree_docsTools : ∀ tool ∈ [dashTool, underscoreTool, dashTool], tool.raw.NulFree := by
  intro tool htool
  simp only [mem_cons, not_mem_nil, or_false] at htool
  rcases htool with rfl | rfl | rfl <;> exact ⟨by decide, by decide, by decide, by decide, by decide⟩

theorem hasRetries_docsTools : HasRetries docsSha1 [] ((sortedCandidates docsSha1 true []
    [dashTool, underscoreTool, dashTool]).map toCandidateNames) := by
  have hsorted : (sortedCandidates docsSha1 true [] [dashTool, underscoreTool, dashTool]).map toCandidateNames =
      [⟨dashTool.raw.namespaceIdentity, dashTool.raw.identity, "mcp__docs".toList, "a_b_920b6f18f27b".toList⟩,
        ⟨dashTool.raw.namespaceIdentity, underscoreTool.raw.identity, "mcp__docs".toList, "a_b_ad9cfbd56676".toList⟩] := by
    decide +kernel
  rw [hsorted]
  refine ⟨⟨0, by decide, not_mem_nil⟩, fun r hr => ⟨⟨0, by decide, ?_⟩, fun _ _ => trivial⟩⟩
  have hfirst : uniqueCallableParts docsSha1 "mcp__docs".toList "a_b_920b6f18f27b".toList dashTool.raw.identity []
      (byteLen mcpToolNameDelimiter) =
        some (("mcp__docs".toList, "a_b_920b6f18f27b".toList), ["mcp__docsa_b_920b6f18f27b".toList]) := by
    decide +kernel
  obtain rfl := Option.some.inj (hfirst.symm.trans hr)
  decide +kernel

/-- The tools get different names, which another order of the list does not change; the copy of the first one is left out. -/
theorem normalize_names_docsTools :
    normalizeToolsForModelWithPrefix docsSha1 true [] [dashTool, underscoreTool, dashTool] =
      some [dashTool.named ("mcp__docs".toList, "a_b_920b6f18f27b".toList),
        underscoreTool.named ("mcp__docs".toList, "a_b_ad9cfbd56676".toList)] ∧
    ∃ names : RawTool → Str × Str, (∃ distinct, Distinct [underscoreTool, dashTool, dashTool] distinct ∧
        normalizeToolsForModelWithPrefix docsSha1 true [] [underscoreTool, dashTool, dashTool] =
          some (distinct.map fun tool => tool.named (names tool.raw))) ∧
      (names dashTool.raw).1 ++ (names dashTool.raw).2 ≠ (names underscoreTool.raw).1 ++ (names underscoreTool.raw).2 ∧
      Fits (names dashTool.raw) ∧ Fits (names underscoreTool.raw) := by
  refine ⟨by decide +kernel, ?_⟩
  obtain ⟨names, hnames, hdiffer, hfits⟩ := normalize_names_raw_tools docsSha1 true []
    [dashTool, underscoreTool, dashTool] nulFree_docsTools hasRetries_docsTools
  refine ⟨names, hnames _ (.swap _ _ _), fun heq => ?_, hfits dashTool (by decide), hfits underscoreTool (by decide)⟩
  exact absurd (hdiffer dashTool (by decide) underscoreTool (by decide) heq) (by decide)

end Dcode.Mcp
