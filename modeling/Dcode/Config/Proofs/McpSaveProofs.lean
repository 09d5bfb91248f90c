import Dcode.Config.Proofs.McpReadProofs
import Dcode.Mcp.Tools

/-!
# Saving MCP servers keeps their meaning

The servers that are read from a config, saved into a document and read again have the same names and settings. What can
change is an empty list or map: it is not written, so it comes back as absent. For the maps of a transport that is the
same thing; an empty list of enabled tools, which allows no tool, comes back as no list, which allows all of them.
-/

namespace Dcode.Config

open IndexMap McpServerTransportConfig List Except ConfigDocument McpServerConfig

section Save

variable {F D : Type} {ops : Seconds F D}

/-! ## The table of the servers -/

def Written (ops : Seconds F D) (config : McpServerConfig D) (item : TomlItem F) : Prop :=
  ∃ entries, item.intoValue = some (.table entries) ∧ Holds ops config entries

theorem written_serializeMcpServer (config : McpServerConfig D) : Written ops config (serializeMcpServer ops config) := by
  refine ⟨serializeMcpServerInline ops config, ?_, holds_serializeMcpServerInline ops config⟩
  rw [serializeMcpServer, TomlItem.intoValue, serializeMcpServerInline]

theorem written_replacementFor (config : McpServerConfig D) (existing : Option (TomlItem F)) :
    Written ops config (replacementFor ops config existing) := by
  rw [replacementFor.eq_def]
  split
  next inline =>
    refine ⟨_, ?_, holds_mergeInlineTable ops config inline⟩
    rw [TomlItem.intoValue]
  next => exact written_serializeMcpServer config
  next => exact written_serializeMcpServer config

theorem get_foldl_remove (keys : List Str) (table : TomlTable F) (k : Str) :
    get k (keys.foldl (fun table key => remove key table) table) =
      if k ∈ keys then none else get k table := by
  induction keys generalizing table with
  | nil => rfl
  | cons key keys ih =>
    rw [foldl_cons, ih, get_remove]
    by_cases hk : k = key
    · subst hk
      rw [if_pos rfl, if_pos mem_cons_self]
      split <;> rfl
    · simp [hk]

variable {servers : List (Str × McpServerConfig D)} {name : Str}

theorem get_foldl_writeServer_of_none (h : get name servers = none) (table : TomlTable F) :
    get name (servers.foldl (writeServer ops) table) = get name table := by
  induction servers generalizing table with
  | nil => rfl
  | cons server servers ih =>
    rw [get_cons] at h
    split at h
    next => cases h
    next hne => rw [foldl_cons, ih h, writeServer, get_insert, if_neg hne]

variable {config : McpServerConfig D}

theorem get_foldl_writeServer (ops : Seconds F D) (hunique : UniqueKeys servers)
    (h : get name servers = some config) (table : TomlTable F) :
    ∃ item, get name (servers.foldl (writeServer ops) table) = some item ∧ Written ops config item := by
  induction servers generalizing table with
  | nil => cases h
  | cons server servers ih =>
    obtain ⟨hfresh, hrest⟩ := uniqueKeys_cons.mp hunique
    rw [get_cons] at h
    split at h
    next heq =>
      obtain rfl := Option.some.inj h
      subst heq
      refine ⟨_, ?_, written_replacementFor server.2 (TomlTable.get server.1 table)⟩
      rw [foldl_cons, get_foldl_writeServer_of_none (get_eq_none_iff.mpr hfresh), writeServer, get_insert, if_pos rfl]
    next => exact ih hrest h _

theorem get_writeServers_of_none (h : get name servers = none) (table : TomlTable F) :
    get name (writeServers ops servers table) = none := by
  rw [writeServers, get_foldl_writeServer_of_none h, get_foldl_remove]
  split
  next => rfl
  next hkeep =>
    rw [get_eq_none_iff]
    intro hmem
    refine hkeep (mem_filter.mpr ⟨hmem, ?_⟩)
    rw [← get_eq_sorted_get, h]
    rfl

theorem get_writeServers_of_some (ops : Seconds F D) (hunique : UniqueKeys servers)
    (h : get name servers = some config) (table : TomlTable F) :
    ∃ item, get name (writeServers ops servers table) = some item ∧ Written ops config item :=
  get_foldl_writeServer ops hunique h _

variable {table : TomlTable F}

/-- The value of each entry of the table is what is written for the server of that name. -/
theorem exists_holds_of_mem (hunique : UniqueKeys servers) (htable : UniqueKeys table)
    {e : Str × TomlValue F} (he : e ∈ TomlItem.intoInlineTable (writeServers ops servers table)) :
    ∃ config entries, get e.1 servers = some config ∧ e.2 = .table entries ∧ Holds ops config entries := by
  have hwritten := uniqueKeys_writeServers ops servers htable
  have hget := get_of_mem (TomlItem.uniqueKeys_intoInlineTable hwritten) (show (e.1, e.2) ∈ _ from he)
  rw [TomlItem.get_intoInlineTable hwritten] at hget
  obtain ⟨item, hitem, hvalue⟩ := Option.bind_eq_some_iff.mp hget
  cases hconfig : get e.1 servers with
  | none =>
    rw [get_writeServers_of_none hconfig] at hitem
    cases hitem
  | some config =>
    obtain ⟨item', hitem', entries, hentries, hholds⟩ := get_writeServers_of_some ops hunique hconfig table
    obtain rfl : item' = item := Option.some.inj (hitem'.symm.trans hitem)
    exact ⟨config, entries, rfl, Option.some.inj (hvalue.symm.trans hentries), hholds⟩

theorem exists_get_intoInlineTable (ops : Seconds F D) (hunique : UniqueKeys servers)
    (htable : UniqueKeys table) (h : get name servers = some config) :
    ∃ v, get name (TomlItem.intoInlineTable (writeServers ops servers table)) = some v := by
  obtain ⟨item, hitem, entries, hentries, -⟩ := get_writeServers_of_some ops hunique h table
  refine ⟨.table entries, ?_⟩
  rw [TomlItem.get_intoInlineTable (uniqueKeys_writeServers ops servers htable), hitem]
  exact hentries

/-! ## Reading the document again -/

structure ReadBack (servers saved : List (Str × McpServerConfig D)) : Prop where
  sorted : SortedAssoc.Sorted saved
  absent : ∀ name, IndexMap.get name servers = none → IndexMap.get name saved = none
  present : ∀ name config, IndexMap.get name servers = some config →
    ∃ startup tool, IndexMap.get name saved = some (config.reread startup tool)

theorem ensureNoInlineBearerTokens_saved (hunique : UniqueKeys servers) (htable : UniqueKeys table) :
    ensureNoInlineBearerTokens (.table (TomlItem.intoInlineTable (writeServers ops servers table))) = .ok () := by
  rw [ensureNoInlineBearerTokens, forM_eq_ok]
  intro e he
  obtain ⟨config, entries, -, hvalue, hholds⟩ := exists_holds_of_mem hunique htable he
  have htoken : get McpField.bearerToken.key entries = none := hholds .bearerToken
  simp only [hvalue, if_neg (get_eq_none_iff.mp htoken)]

variable {entries : InlineTable F} {α : Type}

theorem exists_mapM_entries {read : Reader F α} (h : ∀ e ∈ entries, ∃ a, read e.2 = .ok a) :
    ∃ l, Forall₂ (fun e e' => e.1 = e'.1 ∧ read e.2 = .ok e'.2) entries l ∧ entries.mapM (fun e => do
        let value ← read e.2
        return (e.1, value)) = .ok l := by
  induction entries with
  | nil => exact ⟨[], .nil, rfl⟩
  | cons e entries ih =>
    obtain ⟨a, ha⟩ := h e mem_cons_self
    obtain ⟨l, hl, hmap⟩ := ih fun e he => h e (mem_cons_of_mem _ he)
    refine ⟨(e.1, a) :: l, .cons ⟨rfl, ha⟩ hl, ?_⟩
    rw [mapM_cons, hmap, ha]
    rfl

theorem keys_eq_of_forall₂ {read : Reader F α} {l : List (Str × α)}
    (h : Forall₂ (fun e e' => e.1 = e'.1 ∧ read e.2 = .ok e'.2) entries l) :
    keys entries = keys l := by
  induction h with
  | nil => rfl
  | cons hhead _ ih => rw [IndexMap.keys_cons, IndexMap.keys_cons, hhead.1, ih]

theorem get_of_forall₂ {read : Reader F α} {l : List (Str × α)}
    (h : Forall₂ (fun e e' => e.1 = e'.1 ∧ read e.2 = .ok e'.2) entries l) {k : Str} {v : TomlValue F}
    (hv : get k entries = some v) : ∃ a, read v = .ok a ∧ get k l = some a := by
  induction h with
  | nil => cases hv
  | @cons e e' entries l hhead _ ih =>
    rw [get_cons] at hv
    rw [get_cons, ← hhead.1]
    split at hv
    next heq =>
      obtain rfl := Option.some.inj hv
      exact ⟨e'.2, hhead.2, if_pos heq⟩
    next hne =>
      obtain ⟨a, ha, hget⟩ := ih hv
      exact ⟨a, ha, (if_neg hne).trans hget⟩

/-- A map whose values can all be read is read, key by key. -/
theorem exists_readMap {read : Reader F α} (hunique : UniqueKeys entries) (h : ∀ e ∈ entries, ∃ a, read e.2 = .ok a) :
    ∃ m, readMap read (.table entries) = .ok m ∧ SortedAssoc.Sorted m ∧ (∀ k, get k entries = none → get k m = none) ∧
      ∀ k v, get k entries = some v → ∃ a, read v = .ok a ∧ get k m = some a := by
  obtain ⟨l, hl, hmap⟩ := exists_mapM_entries h
  have hkeys := keys_eq_of_forall₂ hl
  have hcollect : ∀ k, get k (collect l) = get k l := by
    intro k
    rw [get_eq_sorted_get, get_collect]
    rwa [UniqueKeys, ← hkeys]
  refine ⟨collect l, ?_, sorted_collect l, ?_, ?_⟩
  · rw [readMap, hmap]
    rfl
  · intro k hk
    rw [hcollect, get_eq_none_iff, ← hkeys, ← get_eq_none_iff]
    exact hk
  · intro k v hv
    rw [hcollect]
    exact get_of_forall₂ hl hv

theorem exists_readBack (hunique : UniqueKeys servers)
    (hreadable : ∀ name config, get name servers = some config → config.Readable ops)
    (htable : UniqueKeys table) :
    ∃ saved, readMap (read ops) (.table (TomlItem.intoInlineTable (writeServers ops servers table))) = .ok saved ∧
      ReadBack servers saved := by
  have hwritten := uniqueKeys_writeServers ops servers htable
  have hread : ∀ e ∈ TomlItem.intoInlineTable (writeServers ops servers table),
      ∃ config startup tool, get e.1 servers = some config ∧ read ops e.2 = .ok (config.reread startup tool) := by
    intro e he
    obtain ⟨config, fields, hconfig, hvalue, hholds⟩ := exists_holds_of_mem hunique htable he
    obtain ⟨startup, tool, hr⟩ := hholds.exists_read (hreadable e.1 config hconfig)
    exact ⟨config, startup, tool, hconfig, hvalue ▸ hr⟩
  have hok : ∀ e ∈ TomlItem.intoInlineTable (writeServers ops servers table), ∃ a, read ops e.2 = .ok a := by
    intro e he
    obtain ⟨config, startup, tool, -, hr⟩ := hread e he
    exact ⟨_, hr⟩
  obtain ⟨saved, hsaved, hsorted, habsent, hpresent⟩ :=
    exists_readMap (TomlItem.uniqueKeys_intoInlineTable hwritten) hok
  refine ⟨saved, hsaved, hsorted, ?_, ?_⟩
  · intro name hname
    refine habsent name ?_
    rw [TomlItem.get_intoInlineTable hwritten, get_writeServers_of_none hname]
    rfl
  · intro name config hconfig
    obtain ⟨v, hv⟩ := exists_get_intoInlineTable ops hunique htable hconfig
    obtain ⟨config', startup, tool, hconfig', hr⟩ := hread (name, v) (mem_of_get hv)
    obtain ⟨a, ha, hget⟩ := hpresent name v hv
    obtain rfl : config' = config := Option.some.inj (hconfig'.symm.trans hconfig)
    obtain rfl : a = config'.reread startup tool := ok.inj (ha.symm.trans hr)
    exact ⟨startup, tool, hget⟩

theorem loadGlobalMcpServers_spec {config : InlineTable F} (h : loadGlobalMcpServers ops config = .ok servers) :
    SortedAssoc.Sorted servers ∧ ∀ name config, get name servers = some config → config.Readable ops := by
  rw [loadGlobalMcpServers] at h
  split at h
  next =>
    obtain rfl := ok.inj h
    exact ⟨Pairwise.nil, fun name config h => absurd h (by simp)⟩
  next v _ =>
    obtain ⟨-, -, h⟩ := Run.bind_eq_ok.mp h
    refine ⟨sorted_of_readMap h, fun name config hconfig => ?_⟩
    cases v with
    | table entries =>
      obtain ⟨l, hl, h⟩ := Run.bind_eq_ok.mp h
      obtain rfl := ok.inj h
      rw [get_eq_sorted_get] at hconfig
      obtain ⟨e, -, he⟩ := Run.exists_of_mem_right (Run.mapM_eq_ok.mp hl)
        (mem_of_mem_collect (SortedAssoc.mem_of_get hconfig))
      obtain ⟨a, ha, he⟩ := Run.bind_eq_ok.mp he
      obtain rfl : a = config := congrArg Prod.snd (ok.inj he)
      exact readable_of_read ha
    | _ => cases h

theorem exists_load_replaceMcpServers {config : InlineTable F} (h : loadGlobalMcpServers ops config = .ok servers)
    (document : ConfigDocument F) :
    ∃ saved, loadGlobalMcpServers ops (document.replaceMcpServers ops servers).2.value = .ok saved ∧
      ReadBack servers saved := by
  obtain ⟨hsorted, hreadable⟩ := loadGlobalMcpServers_spec h
  by_cases hempty : servers = []
  · subst hempty
    refine ⟨[], ?_, Pairwise.nil, fun _ _ => rfl, fun name config h => absurd h (by simp)⟩
    have hvalue : get mcpServersKey (document.replaceMcpServers ops []).2.value = none := by
      show get mcpServersKey (TomlItem.intoInlineTable (remove mcpServersKey document.doc)) = none
      rw [TomlItem.get_intoInlineTable (document.uniqueKeys.remove _), get_remove]
      rfl
    rw [loadGlobalMcpServers, hvalue]
  · have hreplace : (document.replaceMcpServers ops servers).2.doc =
        insert mcpServersKey (.table (writeServers ops servers document.serversTable)) document.doc := by
      rw [replaceMcpServers, if_neg (by simpa using hempty)]
    have hvalue : get mcpServersKey (document.replaceMcpServers ops servers).2.value =
        some (.table (TomlItem.intoInlineTable (writeServers ops servers document.serversTable))) := by
      rw [value, hreplace, TomlItem.get_intoInlineTable (document.uniqueKeys.insert _ _), get_insert,
        if_pos rfl, Option.bind_some, TomlItem.intoValue]
    have hunique := uniqueKeys_of_sorted hsorted
    obtain ⟨saved, hsaved, hback⟩ := exists_readBack hunique hreadable document.uniqueKeys_serversTable
    refine ⟨saved, ?_, hback⟩
    rw [loadGlobalMcpServers, hvalue]
    show (do ensureNoInlineBearerTokens _; readMap (read ops) _) = ok saved
    rw [ensureNoInlineBearerTokens_saved hunique document.uniqueKeys_serversTable, ← hsaved]
    rfl

theorem ReadBack.keys_eq {saved : List (Str × McpServerConfig D)} (h : ReadBack servers saved)
    (hsorted : SortedAssoc.Sorted servers) : keys saved = keys servers := by
  refine keys_eq_of_sorted h.sorted hsorted fun name => ⟨fun hnone => ?_, h.absent name⟩
  cases hget : get name servers with
  | none => rfl
  | some config =>
    obtain ⟨startup, tool, hsaved⟩ := h.present name config hget
    rw [hsaved] at hnone
    cases hnone

/-! ## What is kept -/

structure SameSettings (config config' : McpServerConfig D) : Prop where
  transport : config'.transport = config.transport.withoutEmptyMaps
  auth : config'.auth = config.auth
  enabled : config'.enabled = config.enabled
  required : config'.required = config.required
  defaultMode : config'.defaultToolsApprovalMode = config.defaultToolsApprovalMode
  tools : config'.tools = config.tools

theorem sameSettings_reread (config : McpServerConfig D) (startup tool : Option D) :
    SameSettings config (config.reread startup tool) := ⟨rfl, rfl, rfl, rfl, rfl, rfl⟩

def McpServerTransportConfig.NoEmptyMap : McpServerTransportConfig → Prop
  | .stdio _ _ env _ _ => env ≠ some []
  | .streamableHttp _ _ httpHeaders envHttpHeaders => httpHeaders ≠ some [] ∧ envHttpHeaders ≠ some []

theorem bind_nonEmpty_eq_self {o : Option (List α)} : o.bind nonEmpty = o ↔ o ≠ some [] := by
  cases o with
  | none => simp
  | some xs => cases xs <;> simp [nonEmpty]

theorem withoutEmptyMaps_eq_self {transport : McpServerTransportConfig} :
    transport.withoutEmptyMaps = transport ↔ transport.NoEmptyMap := by
  cases transport with
  | stdio command args env envVars cwd | streamableHttp url bearerTokenEnvVar httpHeaders envHttpHeaders =>
    simp [withoutEmptyMaps, McpServerTransportConfig.NoEmptyMap, ← bind_nonEmpty_eq_self]

def SameVerdicts (config config' : McpServerConfig D) : Prop :=
  ∀ toolName, (Mcp.ToolFilter.fromConfig config').allows toolName = (Mcp.ToolFilter.fromConfig config).allows toolName

theorem getD_bind_nonEmpty (o : Option (List α)) : (o.bind nonEmpty).getD [] = o.getD [] := by
  cases o with
  | none => rfl
  | some xs => exact getD_nonEmpty xs

/-- Saving changes what a server lets through exactly if its list of enabled tools is empty. -/
theorem sameVerdicts_reread_iff (config : McpServerConfig D) (startup tool : Option D) :
    SameVerdicts config (config.reread startup tool) ↔ config.enabledTools ≠ some [] := by
  have hdisabled : (config.reread startup tool).disabledTools.getD [] = config.disabledTools.getD [] :=
    getD_bind_nonEmpty config.disabledTools
  constructor
  · intro hsame hempty
    -- Some name is not on the finite list of disabled tools.
    obtain ⟨toolName, htool⟩ := Infinite.exists_notMem_finset (config.disabledTools.getD []).toFinset
    rw [mem_toFinset] at htool
    have hverdict := hsame toolName
    have hopen : (config.reread startup tool).enabledTools = none := by
      show config.enabledTools.bind nonEmpty = none
      rw [hempty]
      rfl
    rw [Mcp.ToolFilter.allows.eq_def, Mcp.ToolFilter.allows.eq_def] at hverdict
    simp only [Mcp.ToolFilter.fromConfig, hopen, hempty, hdisabled] at hverdict
    simp [htool] at hverdict
  · intro hne toolName
    have henabled : (config.reread startup tool).enabledTools = config.enabledTools := bind_nonEmpty_eq_self.mpr hne
    simp [Mcp.ToolFilter.fromConfig, henabled, hdisabled]

/-- Servers that were read from a config, saved into any document and read again have the same names and settings. The
transports are the same exactly if no server has a map that is present and empty, and the same tools are let through exactly
if no server has an empty list of enabled tools. -/
theorem replace_mcp_servers_keeps_iff (ops : Seconds F D) (config : InlineTable F) (servers : List (Str × McpServerConfig D))
    (hload : loadGlobalMcpServers ops config = .ok servers) (document : ConfigDocument F) :
    ∃ saved, loadGlobalMcpServers ops (document.replaceMcpServers ops servers).2.value = .ok saved ∧
      IndexMap.keys saved = IndexMap.keys servers ∧
      (∀ name before after, IndexMap.get name servers = some before → IndexMap.get name saved = some after →
        SameSettings before after) ∧
      ((∀ name before after, IndexMap.get name servers = some before → IndexMap.get name saved = some after →
          after.transport = before.transport) ↔
        ∀ name before, IndexMap.get name servers = some before → before.transport.NoEmptyMap) ∧
      ((∀ name before after, IndexMap.get name servers = some before → IndexMap.get name saved = some after →
          SameVerdicts before after) ↔
        ∀ name before, IndexMap.get name servers = some before → before.enabledTools ≠ some []) := by
  obtain ⟨hsorted, -⟩ := loadGlobalMcpServers_spec hload
  obtain ⟨saved, hsaved, hback⟩ := exists_load_replaceMcpServers hload document
  have hreread : ∀ name before after, IndexMap.get name servers = some before → IndexMap.get name saved = some after →
      ∃ startup tool, after = before.reread startup tool := by
    intro name before after hbefore hafter
    obtain ⟨startup, tool, hget⟩ := hback.present name before hbefore
    exact ⟨startup, tool, Option.some.inj (hafter.symm.trans hget)⟩
  refine ⟨saved, hsaved, hback.keys_eq hsorted, ?_, ⟨?_, ?_⟩, ⟨?_, ?_⟩⟩
  · intro name before after hbefore hafter
    obtain ⟨startup, tool, rfl⟩ := hreread name before after hbefore hafter
    exact sameSettings_reread before startup tool
  · intro hsame name before hbefore
    obtain ⟨startup, tool, hafter⟩ := hback.present name before hbefore
    exact withoutEmptyMaps_eq_self.mp (hsame name before _ hbefore hafter)
  · intro hmaps name before after hbefore hafter
    obtain ⟨startup, tool, rfl⟩ := hreread name before after hbefore hafter
    exact withoutEmptyMaps_eq_self.mpr (hmaps name before hbefore)
  · intro hsame name before hbefore
    obtain ⟨startup, tool, hafter⟩ := hback.present name before hbefore
    exact (sameVerdicts_reread_iff before startup tool).mp (hsame name before _ hbefore hafter)
  · intro htools name before after hbefore hafter
    obtain ⟨startup, tool, rfl⟩ := hreread name before after hbefore hafter
    exact (sameVerdicts_reread_iff before startup tool).mpr (htools name before hbefore)

end Save

/-! ## A server with an empty list of enabled tools -/

theorem wholeSeconds_reread (x d : Nat) (_ : (ok x : Except Str Nat) = .ok d) :
    ∃ d', (ok d : Except Str Nat) = .ok d' := ⟨d, rfl⟩

/-- Durations of whole seconds. -/
def wholeSeconds : Seconds Nat Nat where
  ofInt := Int.toNat
  tryFromSecsF64 := .ok
  asSecsF64 := id
  fromMillis := fun ms => ms / 1000
  reread := wholeSeconds_reread
  reread_millis := fun ms _ => ⟨ms / 1000, rfl⟩

def docsConfig (enabledTools : List Str) : InlineTable Nat :=
  [(mcpServersKey, .table [("docs".toList, .table
    [("command".toList, .string "run".toList), ("enabled_tools".toList, .array (enabledTools.map .string))])])]

def docsServer (enabledTools : Option (List Str)) : McpServerConfig Nat where
  transport := .stdio "run".toList [] none [] none
  auth := .oAuth
  environmentId := defaultMcpServerEnvironmentId
  enabled := true
  required := false
  supportsParallelToolCalls := false
  omitToolsFrom := none
  startupTimeoutSec := none
  toolTimeoutSec := none
  defaultToolsApprovalMode := none
  enabledTools := enabledTools
  disabledTools := none
  scopes := none
  oauth := none
  oauthResource := none
  tools := []

theorem emptyDocument_servers :
    ∀ table, get mcpServersKey ([] : TomlTable Nat) = some (.table table) → UniqueKeys table :=
  fun _ h => nomatch h

def emptyDocument : ConfigDocument Nat where
  doc := []
  uniqueKeys := IndexMap.uniqueKeys_nil
  uniqueServers := emptyDocument_servers

theorem load_docsConfig_read : loadGlobalMcpServers wholeSeconds (docsConfig ["read".toList]) =
      .ok [("docs".toList, docsServer (some ["read".toList]))] := rfl

/-- Has the server already, as an inline table with another command, and one that is to go. -/
def oldServers : TomlTable Nat :=
  [("docs".toList, .value (.table [("command".toList, .string "old".toList), ("required".toList, .boolean true)])),
    ("stale".toList, .table [("command".toList, .value (.string "run".toList))])]

theorem oldDocument_servers :
    ∀ table, get mcpServersKey [(mcpServersKey, TomlItem.table oldServers)] = some (.table table) → UniqueKeys table := by
  rintro table ⟨⟩
  exact (by decide : (keys oldServers).Nodup)

def oldDocument : ConfigDocument Nat where
  doc := [(mcpServersKey, .table oldServers)]
  uniqueKeys := List.nodup_singleton _
  uniqueServers := oldDocument_servers

theorem replace_mcp_servers_keeps_docs : ∃ saved, loadGlobalMcpServers wholeSeconds
        (oldDocument.replaceMcpServers wholeSeconds [("docs".toList, docsServer (some ["read".toList]))]).2.value = .ok saved ∧
      IndexMap.keys saved = ["docs".toList] ∧ ∀ after, get "docs".toList saved = some after →
        SameSettings (docsServer (some ["read".toList])) after ∧
        after.transport = .stdio "run".toList [] none [] none ∧ SameVerdicts (docsServer (some ["read".toList])) after := by
  obtain ⟨saved, hsaved, hkeys, hsettings, htransport, hverdicts⟩ := replace_mcp_servers_keeps_iff wholeSeconds
    (docsConfig ["read".toList]) [("docs".toList, docsServer (some ["read".toList]))] load_docsConfig_read oldDocument
  have honly : ∀ name before, get name [("docs".toList, docsServer (some ["read".toList]))] = some before →
      before = docsServer (some ["read".toList]) := by
    intro name before h
    exact (Prod.mk.inj (List.mem_singleton.mp (IndexMap.mem_of_get h))).2
  refine ⟨saved, hsaved, hkeys, fun after hafter => ⟨hsettings _ _ after rfl hafter, ?_, ?_⟩⟩
  · refine htransport.mpr (fun name before h => ?_) _ _ after rfl hafter
    rw [honly name before h]
    nofun
  · refine hverdicts.mpr (fun name before h => ?_) _ _ after rfl hafter
    rw [honly name before h]
    nofun

/-- A server with an empty list of enabled tools lets no tool through. After it is saved and loaded again it has no such list
and lets every tool through. -/
theorem replace_mcp_servers_opens_empty_list :
    loadGlobalMcpServers wholeSeconds (docsConfig []) = .ok [("docs".toList, docsServer (some []))] ∧
      loadGlobalMcpServers wholeSeconds
        (emptyDocument.replaceMcpServers wholeSeconds [("docs".toList, docsServer (some []))]).2.value =
          .ok [("docs".toList, docsServer none)] ∧
      (Mcp.ToolFilter.fromConfig (docsServer (some []))).allows "read".toList = false ∧
      (Mcp.ToolFilter.fromConfig (docsServer none)).allows "read".toList = true :=
  ⟨rfl, rfl, rfl, rfl⟩

end Dcode.Config
