import Dcode.Config.Edit

/-!
# Reading saved MCP servers

What is read back from the fields that were written for a server: everything but empty lists and maps, which come back as
absent.
-/

namespace Dcode.Config

open List Option IndexMap RawMcpServerConfig Except Run

/-! ## Keys -/

def McpField.all : List McpField := writeOrder ++ [.bearerToken, .startupTimeoutMs, .name]

theorem McpField.mem_all (field : McpField) : field ∈ McpField.all := by
  cases field <;> decide

theorem McpField.find?_key_of_mem :
    ∀ field ∈ McpField.all, McpField.all.find? (fun f => f.key == field.key) = some field := by
  decide +kernel

theorem McpField.find?_key (field : McpField) : McpField.all.find? (fun f => f.key == field.key) = some field :=
  McpField.find?_key_of_mem field field.mem_all

theorem McpField.key_injective {f g : McpField} (h : f.key = g.key) : f = g := by
  have hfind := McpField.find?_key f
  rw [h, McpField.find?_key g] at hfind
  exact (some.inj hfind).symm

section Written

variable {F D : Type} (ops : Seconds F D) (config : McpServerConfig D)

theorem get_writeField (entry : TomlTable F) (f g : McpField) : get f.key (writeField ops config entry g) =
      if f = g then (writtenField ops config f).or (get f.key entry) else get f.key entry := by
  rw [writeField]
  by_cases hfg : f = g
  · subst hfg
    rw [if_pos rfl]
    cases writtenField ops config f with
    | none => rfl
    | some item => exact (get_insert ..).trans (if_pos rfl)
  · have hkey : f.key ≠ g.key := fun h => hfg (McpField.key_injective h)
    rw [if_neg hfg]
    cases writtenField ops config g with
    | none => rfl
    | some item => exact (get_insert ..).trans (if_neg hkey)

theorem get_foldl_writeField (fields : List McpField) (entry : TomlTable F) (f : McpField) :
    get f.key (fields.foldl (writeField ops config) entry) =
      if f ∈ fields then (writtenField ops config f).or (get f.key entry) else get f.key entry := by
  induction fields generalizing entry with
  | nil => rfl
  | cons g fields ih =>
    rw [foldl_cons, ih, get_writeField]
    by_cases hfg : f = g
    · subst hfg
      rw [if_pos rfl, if_pos mem_cons_self]
      split
      next => cases writtenField ops config f <;> rfl
      next => rfl
    · simp [hfg]

theorem writtenField_of_notMem {f : McpField} (h : f ∉ writeOrder) : writtenField ops config f = none := by
  cases f with
  | bearerToken | startupTimeoutMs | name => rfl
  | _ => exact absurd (by decide) h

theorem get_serializeMcpServerTable (f : McpField) :
    get f.key (serializeMcpServerTable ops config) = writtenField ops config f := by
  rw [serializeMcpServerTable, get_foldl_writeField, get_nil, or_none]
  split
  next => rfl
  next h => exact (writtenField_of_notMem ops config h).symm

theorem uniqueKeys_serializeMcpServerTable : UniqueKeys (serializeMcpServerTable ops config) := by
  refine foldlRecOn (motive := UniqueKeys) writeOrder _ uniqueKeys_nil fun entry h f _ => ?_
  rw [writeField]
  cases writtenField ops config f with
  | none => exact h
  | some item => exact h.insert _ _

def Holds (entries : InlineTable F) : Prop :=
  ∀ f : McpField, IndexMap.get f.key entries = (writtenField ops config f).bind TomlItem.intoValue

theorem holds_serializeMcpServerInline : Holds ops config (serializeMcpServerInline ops config) := by
  intro f
  rw [serializeMcpServerInline, TomlItem.get_intoInlineTable (uniqueKeys_serializeMcpServerTable ops config),
    get_serializeMcpServerTable]

theorem holds_mergeInlineTable (existing : InlineTable F) :
    Holds ops config (mergeInlineTable existing (serializeMcpServerInline ops config)) := by
  intro f
  have hunique : UniqueKeys (serializeMcpServerInline ops config) :=
    TomlItem.uniqueKeys_intoInlineTable (uniqueKeys_serializeMcpServerTable ops config)
  rw [← holds_serializeMcpServerInline ops config f, mergeInlineTable, get_foldl_insert hunique, get_retain]
  cases get f.key (serializeMcpServerInline ops config) <;> rfl

end Written

/-! ## Items and their readers -/

section Reads

variable {F D α β : Type}

def Reads (read : Reader F α) (item : TomlItem F) (a : α) : Prop := ∃ v, item.intoValue = some v ∧ read v = .ok a

variable {read : Reader F α}

theorem reads_value {v : TomlValue F} {a : α} (h : read v = .ok a) : Reads read (.value v) a :=
  ⟨v, by rw [TomlItem.intoValue], h⟩

theorem reads_textItem (s : Str) : Reads readString (textItem (F := F) s) s := reads_value rfl

theorem reads_array {f : α → TomlValue F} (h : ∀ x, read (f x) = .ok x) (xs : List α) :
    Reads (readArray read) (.value (.array (xs.map f))) xs := by
  apply reads_value
  show (xs.map f).mapM read = .ok xs
  rw [mapM_eq_ok, forall₂_map_left_iff, forall₂_same]
  exact fun x _ => h x

theorem reads_arrayFromIter (xs : List Str) : Reads (readArray readString) (arrayFromIter (F := F) xs) xs :=
  reads_array (f := .string) (fun _ => rfl) xs

theorem readSurface_text (surface : ToolExposureSurface) :
    readSurface (F := F) (.string surface.text) = .ok surface := by
  cases surface <;> rfl

theorem reads_surfaces (surfaces : List ToolExposureSurface) :
    Reads (readArray readSurface) (arrayFromIter (F := F) (surfaces.map ToolExposureSurface.text)) surfaces := by
  rw [arrayFromIter, List.map_map]
  exact reads_array readSurface_text surfaces

theorem readEnvVar_envVarValue (envVar : McpServerEnvVar) : readEnvVar (envVarValue (F := F) envVar) = .ok envVar := by
  cases envVar with
  | name name => rfl
  | config name source => cases source <;> rfl

theorem reads_arrayFromEnvVars (envVars : List McpServerEnvVar) :
    Reads (readArray readEnvVar) (arrayFromEnvVars (F := F) envVars) envVars :=
  reads_array readEnvVar_envVarValue envVars

theorem reads_approval (mode : AppToolApproval) : Reads readApproval (textItem (F := F) mode.text) mode := by
  apply reads_value
  cases mode <;> rfl

variable {f : α → TomlItem F}

theorem reads_map (hread : ∀ a, Reads read (f a) a) {m : List (Str × α)} (hsorted : SortedAssoc.Sorted m) :
    Reads (readMap read) (.table (ofEntries (m.map fun e => (e.1, f e.2)))) m := by
  have hkeys : keys (m.map fun e => (e.1, f e.2)) = keys m := by
    rw [IndexMap.keys, List.map_map]
    rfl
  have hunique : UniqueKeys (m.map fun e => (e.1, f e.2)) := by
    rw [UniqueKeys, hkeys]
    exact uniqueKeys_of_sorted hsorted
  rw [ofEntries_of_uniqueKeys hunique]
  choose v hv hr using hread
  have hvalue : TomlItem.intoInlineTable (m.map fun e => (e.1, f e.2)) = m.map fun e => (e.1, v e.2) := by
    clear hkeys hunique hsorted
    induction m with
    | nil => rw [map_nil, map_nil, TomlItem.intoInlineTable]
    | cons e m ih => simp [TomlItem.intoInlineTable, hv, ih]
  refine ⟨.table (m.map fun e => (e.1, v e.2)), by rw [TomlItem.intoValue, hvalue], ?_⟩
  have hentries : (m.map fun e => (e.1, v e.2)).mapM (fun e => do
      let value ← read e.2
      return (e.1, value)) = .ok m := by
    rw [mapM_eq_ok, forall₂_map_left_iff, forall₂_same]
    intro e _
    rw [hr]
    rfl
  rw [readMap, hentries]
  show ok (collect m) = .ok m
  rw [collect_of_sorted hsorted]

theorem reads_tableFromPairs {pairs : List (Str × Str)} (hsorted : SortedAssoc.Sorted pairs) :
    Reads (readMap readString) (tableFromPairs (F := F) pairs) pairs := reads_map reads_textItem hsorted

theorem reads_serializeMcpServerTool (config : McpServerToolConfig) :
    Reads readTool (serializeMcpServerTool (F := F) config) config := by
  obtain ⟨mode⟩ := config
  cases mode with
  | none => exact ⟨.table [], by simp [serializeMcpServerTool, TomlItem.intoValue, TomlItem.intoInlineTable], rfl⟩
  | some mode =>
    refine ⟨.table [("approval_mode".toList, .string mode.text)], ?_, ?_⟩
    · simp [serializeMcpServerTool, IndexMap.insert, TomlItem.intoValue, TomlItem.intoInlineTable, textItem]
    · cases mode <;> rfl

theorem reads_toolsTable {tools : List (Str × McpServerToolConfig)} (hsorted : SortedAssoc.Sorted tools) :
    Reads (readMap readTool) (toolsTable (F := F) tools) tools := reads_map reads_serializeMcpServerTool hsorted

theorem reads_oauth (clientId : Str) :
    Reads readOAuth (.table (F := F) (IndexMap.insert "client_id".toList (textItem clientId) []))
      { clientId := some clientId } := by
  refine ⟨.table [("client_id".toList, .string clientId)], ?_, rfl⟩
  simp [IndexMap.insert, TomlItem.intoValue, TomlItem.intoInlineTable, textItem]

theorem reads_duration (ops : Seconds F D) {x : F} {d : D} (h : ops.tryFromSecsF64 x = .ok d) :
    Reads (readDuration ops) (.value (.float x)) d := by
  apply reads_value
  show durationFromSecs ops x = .ok d
  rw [durationFromSecs, h]

theorem readField_of_reads {read : Reader F β} {key : Str} {entries : InlineTable F} {o : Option α} {g : α → β}
    (hget : get key entries = (o.map f).bind TomlItem.intoValue)
    (hreads : ∀ a, o = some a → Reads read (f a) (g a)) : readField key read entries = .ok (o.map g) := by
  cases o with
  | none =>
    rw [readField, hget]
    rfl
  | some a =>
    obtain ⟨v, hv, hr⟩ := hreads a rfl
    rw [readField, hget, map_some, bind_some, hv]
    show (do let value ← read v; return some value) = ok (some (g a))
    rw [hr]
    rfl

theorem readField_of_reads_self {key : Str} {entries : InlineTable F} {o : Option α}
    (hget : get key entries = (o.map f).bind TomlItem.intoValue)
    (hreads : ∀ a, o = some a → Reads read (f a) a) : readField key read entries = .ok o := by
  rw [readField_of_reads hget hreads]
  exact congrArg _ map_id'

end Reads

/-! ## Servers that can be read back -/

def McpServerTransportConfig.Sorted : McpServerTransportConfig → Prop
  | .stdio _ _ env _ _ => ∀ m, env = some m → SortedAssoc.Sorted m
  | .streamableHttp _ _ httpHeaders envHttpHeaders =>
    (∀ m, httpHeaders = some m → SortedAssoc.Sorted m) ∧ ∀ m, envHttpHeaders = some m → SortedAssoc.Sorted m

/-- The settings that only an HTTP transport takes are not set for a command, and the sources of its variables are known. -/
def McpServerConfig.StdioOnly {D : Type} (config : McpServerConfig D) : Prop :=
  match config.transport with
  | .stdio _ _ _ envVars _ =>
    config.auth = .oAuth ∧ config.oauth = none ∧ config.oauthResource = none ∧
      ∀ envVar ∈ envVars, envVar.validateSource = .ok ()
  | .streamableHttp .. => True

structure McpServerConfig.Readable {F D : Type} (ops : Seconds F D) (config : McpServerConfig D) : Prop where
  sorted : config.transport.Sorted
  stdioOnly : config.StdioOnly
  tools : SortedAssoc.Sorted config.tools
  startup : ∀ d, config.startupTimeoutSec = some d → ∃ d', ops.tryFromSecsF64 (ops.asSecsF64 d) = .ok d'
  tool : ∀ d, config.toolTimeoutSec = some d → ∃ d', ops.tryFromSecsF64 (ops.asSecsF64 d) = .ok d'

section Readable

variable {F D α : Type}

variable {read : Reader F α} {entries : InlineTable F}

theorem readField_eq_ok {key : Str} {o : Option α} (h : readField key read entries = .ok o) {a : α} (ha : o = some a) :
    ∃ v, read v = .ok a := by
  rw [readField] at h
  split at h
  next => exact absurd (ha.symm.trans (ok.inj h).symm) (by simp)
  next v _ =>
    obtain ⟨value, hvalue, h⟩ := bind_eq_ok.mp h
    obtain rfl : value = a := some.inj ((ok.inj h).trans ha)
    exact ⟨v, hvalue⟩

theorem sorted_of_readMap {v : TomlValue F} {m : List (Str × α)} (h : readMap read v = .ok m) :
    SortedAssoc.Sorted m := by
  cases v with
  | table entries =>
    obtain ⟨entries, -, h⟩ := bind_eq_ok.mp h
    rw [← ok.inj h]
    exact sorted_collect _
  | _ => cases h

theorem sorted_of_readField {key : Str} {o : Option (List (Str × α))} (h : readField key (readMap read) entries = .ok o)
    : ∀ m, o = some m → SortedAssoc.Sorted m := by
  intro m hm
  obtain ⟨v, hv⟩ := readField_eq_ok h hm
  exact sorted_of_readMap hv

theorem durationFromSecs_eq_ok {ops : Seconds F D} {x : F} {d : D} (h : durationFromSecs ops x = .ok d) :
    ops.tryFromSecsF64 x = .ok d := by
  rw [durationFromSecs] at h
  split at h
  next d' hd =>
    obtain rfl := ok.inj h
    exact hd
  next => cases h

theorem throwIfSet_eq_ok {transport field : Str} {value : Option α} {u : Unit}
    (h : throwIfSet transport field value = .ok u) : value = none := by
  cases value with
  | none => rfl
  | some a => cases h

theorem forM_eq_ok {β : Type} {f : β → Except ConfigError Unit} {l : List β} :
    l.forM f = .ok () ↔ ∀ b ∈ l, f b = .ok () := by
  induction l with
  | nil => exact ⟨fun _ b hb => absurd hb not_mem_nil, fun _ => rfl⟩
  | cons b l ih =>
    show (f b >>= fun _ => l.forM f) = .ok () ↔ _
    rw [bind_eq_ok, forall_mem_cons, ← ih]
    exact ⟨fun ⟨_, hb, h⟩ => ⟨hb, h⟩, fun ⟨hb, h⟩ => ⟨(), hb, h⟩⟩

variable {ops : Seconds F D}

structure RawMcpServerConfig.Read (ops : Seconds F D) (raw : RawMcpServerConfig F D) : Prop where
  env : ∀ m, raw.env = some m → SortedAssoc.Sorted m
  httpHeaders : ∀ m, raw.httpHeaders = some m → SortedAssoc.Sorted m
  envHttpHeaders : ∀ m, raw.envHttpHeaders = some m → SortedAssoc.Sorted m
  startupMs : ∀ ms, raw.startupTimeoutMs = some ms → ms < 2 ^ 64
  tool : ∀ d, raw.toolTimeoutSec = some d → ∃ x, ops.tryFromSecsF64 x = .ok d
  tools : ∀ m, raw.tools = some m → SortedAssoc.Sorted m

theorem RawMcpServerConfig.read_spec {raw : RawMcpServerConfig F D} (h : RawMcpServerConfig.read ops entries = .ok raw)
    : raw.Read ops := by
  simp only [RawMcpServerConfig.read, bind_eq_ok] at h
  obtain ⟨_, -, _, -, env, henv, _, -, _, -, http, hhttp, envHttp, henvHttp, _, -, _, -, _, -, _, -, _, -, _, -, ms, hms,
    tool, htool, _, -, _, -, _, -, _, -, _, -, _, -, _, -, _, -, _, -, _, -, _, -, tools, htools, h⟩ := h
  obtain rfl := ok.inj h
  refine ⟨sorted_of_readField henv, sorted_of_readField hhttp, sorted_of_readField henvHttp, ?_, ?_,
    sorted_of_readField htools⟩
  · intro ms hms'
    obtain ⟨v, hv⟩ := readField_eq_ok hms hms'
    cases v with
    | integer n =>
      simp only [readU64] at hv
      split at hv
      next hn =>
        obtain rfl := ok.inj hv
        omega
      next => cases hv
    | _ => cases hv
  · intro d hd
    obtain ⟨v, hv⟩ := readField_eq_ok htool hd
    obtain ⟨x, -, hx⟩ := bind_eq_ok.mp hv
    exact ⟨x, durationFromSecs_eq_ok hx⟩

namespace RawMcpServerConfig

variable {raw : RawMcpServerConfig F D}

theorem Read.startup (hraw : raw.Read ops) {o : Option D} (h : raw.startupTimeout ops = .ok o) :
    ∀ d, o = some d → ∃ d', ops.tryFromSecsF64 (ops.asSecsF64 d) = .ok d' := by
  intro d hd
  rw [startupTimeout] at h
  split at h
  next sec _ =>
    obtain ⟨d', hd', h⟩ := bind_eq_ok.mp h
    obtain rfl : d' = d := some.inj ((ok.inj h).trans hd)
    exact ops.reread sec d' (durationFromSecs_eq_ok hd')
  next ms _ hms =>
    obtain rfl : ops.fromMillis ms = d := some.inj ((ok.inj h).trans hd)
    exact ops.reread_millis ms (hraw.startupMs ms hms)
  next => exact absurd (hd.symm.trans (ok.inj h).symm) (by simp)

theorem stdioTransport_spec {command : Str} {transport : McpServerTransportConfig}
    (h : raw.stdioTransport command = .ok transport) :
    transport = .stdio command (raw.args.getD []) raw.env (raw.envVars.getD []) raw.cwd ∧ raw.oauth = none ∧
      raw.oauthResource = none ∧ raw.auth = none ∧ ∀ envVar ∈ raw.envVars.getD [], envVar.validateSource = .ok () := by
  simp only [stdioTransport, bind_eq_ok] at h
  obtain ⟨_, -, _, -, _, -, _, -, _, -, _, hoauth, _, hresource, _, hauth, _, hsources, h⟩ := h
  exact ⟨(ok.inj h).symm, throwIfSet_eq_ok hoauth, throwIfSet_eq_ok hresource, throwIfSet_eq_ok hauth,
    forM_eq_ok.mp hsources⟩

theorem httpTransport_spec {url : Str} {transport : McpServerTransportConfig} (h : raw.httpTransport url = .ok transport) :
    transport = .streamableHttp url raw.bearerTokenEnvVar raw.httpHeaders raw.envHttpHeaders := by
  simp only [httpTransport, bind_eq_ok] at h
  obtain ⟨_, -, _, -, _, -, _, -, _, -, h⟩ := h
  exact (ok.inj h).symm

theorem sorted_getD {m : Option (List (Str × α))} (h : ∀ l, m = some l → SortedAssoc.Sorted l) :
    SortedAssoc.Sorted (m.getD []) := by
  cases m with
  | none => exact List.Pairwise.nil
  | some l => exact h l rfl

/-- A raw configuration that is accepted is a server that can be read back. -/
theorem Read.readable (hraw : raw.Read ops) {config : McpServerConfig D} (h : raw.tryFrom ops = .ok config) :
    config.Readable ops := by
  obtain ⟨startup, hstartup, h⟩ := bind_eq_ok.mp h
  obtain ⟨transport, htransport, h⟩ := bind_eq_ok.mp h
  obtain rfl := ok.inj h
  have htool : ∀ d, raw.toolTimeoutSec = some d → ∃ d', ops.tryFromSecsF64 (ops.asSecsF64 d) = .ok d' := by
    intro d hd
    obtain ⟨x, hx⟩ := hraw.tool d hd
    exact ops.reread x d hx
  rw [RawMcpServerConfig.transport] at htransport
  split at htransport
  next command _ _ =>
    obtain ⟨rfl, hoauth, hresource, hauth, hsources⟩ := stdioTransport_spec htransport
    exact ⟨hraw.env, ⟨congrArg (getD · McpServerAuth.oAuth) hauth, hoauth, hresource, hsources⟩,
      sorted_getD hraw.tools, hraw.startup hstartup, htool⟩
  next url _ _ =>
    obtain rfl := httpTransport_spec htransport
    exact ⟨⟨hraw.httpHeaders, hraw.envHttpHeaders⟩, trivial, sorted_getD hraw.tools, hraw.startup hstartup, htool⟩
  next => cases htransport

end RawMcpServerConfig

theorem McpServerConfig.readable_of_read {v : TomlValue F} {config : McpServerConfig D}
    (h : McpServerConfig.read ops v = .ok config) : config.Readable ops := by
  cases v with
  | table entries =>
    obtain ⟨raw, hraw, hconfig⟩ := bind_eq_ok.mp h
    exact (read_spec hraw).readable hconfig
  | _ => cases h

end Readable

/-! ## Reading a saved server -/

theorem getD_nonEmpty {α : Type} (xs : List α) : (nonEmpty xs).getD [] = xs := by
  cases xs <;> rfl

theorem nonEmpty_eq_some {α : Type} {xs ys : List α} (h : nonEmpty xs = some ys) : xs = ys := by
  cases xs with
  | nil => cases h
  | cons x xs => exact some.inj h

theorem bind_nonEmpty_eq_some {α : Type} {o : Option (List α)} {ys : List α} (h : o.bind nonEmpty = some ys) : o = some ys := by
  obtain ⟨xs, rfl, hxs⟩ := bind_eq_some_iff.mp h
  rw [nonEmpty_eq_some hxs]

def McpServerTransportConfig.withoutEmptyMaps : McpServerTransportConfig → McpServerTransportConfig
  | .stdio command args env envVars cwd => .stdio command args (env.bind nonEmpty) envVars cwd
  | .streamableHttp url bearerTokenEnvVar httpHeaders envHttpHeaders =>
    .streamableHttp url bearerTokenEnvVar (httpHeaders.bind nonEmpty) (envHttpHeaders.bind nonEmpty)

section Saved

variable {F D : Type}

def McpServerConfig.reread (config : McpServerConfig D) (startup tool : Option D) : McpServerConfig D :=
  { config with
    transport := config.transport.withoutEmptyMaps
    startupTimeoutSec := startup
    toolTimeoutSec := tool
    enabledTools := config.enabledTools.bind nonEmpty
    disabledTools := config.disabledTools.bind nonEmpty
    scopes := config.scopes.bind nonEmpty
    oauth := ((config.oauth.bind McpServerOAuthConfig.clientId).bind nonEmpty).map fun clientId => ⟨some clientId⟩
    oauthResource := config.oauthResource.bind nonEmpty }

def McpServerTransportConfig.savedRaw : McpServerTransportConfig → RawMcpServerConfig F D
  | .stdio command args env envVars cwd =>
    { command := some command, args := nonEmpty args, env := env.bind nonEmpty, envVars := nonEmpty envVars, cwd := cwd }
  | .streamableHttp url bearerTokenEnvVar httpHeaders envHttpHeaders =>
    { url := some url, bearerTokenEnvVar := bearerTokenEnvVar, httpHeaders := httpHeaders.bind nonEmpty
      envHttpHeaders := envHttpHeaders.bind nonEmpty }

def McpServerConfig.savedRaw (ops : Seconds F D) (config : McpServerConfig D) (tool : Option D) : RawMcpServerConfig F D :=
  { (config.transport.savedRaw : RawMcpServerConfig F D) with
    auth := if config.auth = .chatGpt then some .chatGpt else none
    enabled := if !config.enabled then some false else none
    environmentId := if !config.isLocalEnvironment then some config.environmentId else none
    required := if config.required then some true else none
    supportsParallelToolCalls := if config.supportsParallelToolCalls then some true else none
    omitToolsFrom := config.omitToolsFrom
    startupTimeoutSec := config.startupTimeoutSec.map ops.asSecsF64
    toolTimeoutSec := tool
    defaultToolsApprovalMode := config.defaultToolsApprovalMode
    enabledTools := config.enabledTools.bind nonEmpty
    disabledTools := config.disabledTools.bind nonEmpty
    scopes := config.scopes.bind nonEmpty
    oauth := ((config.oauth.bind McpServerOAuthConfig.clientId).bind nonEmpty).map fun clientId => ⟨some clientId⟩
    oauthResource := config.oauthResource.bind nonEmpty
    tools := nonEmpty config.tools }

variable {ops : Seconds F D} {config : McpServerConfig D} {entries : InlineTable F}

theorem readField_none {α : Type} {read : Reader F α} {key : Str} (h : get key entries = none) :
    readField key read entries = .ok none := by
  rw [readField, h]

theorem readField_ite {α : Type} {read : Reader F α} {key : Str} {p : Prop} [Decidable p] {item : TomlItem F} {a : α}
    (hget : get key entries = (if p then some item else none).bind TomlItem.intoValue) (hreads : Reads read item a) :
    readField key read entries = .ok (if p then some a else none) := by
  split
  next hp =>
    rw [if_pos hp] at hget
    exact readField_of_reads (o := some a) (f := fun _ => item) (g := id) hget fun _ h => some.inj h ▸ hreads
  next hp =>
    rw [if_neg hp] at hget
    exact readField_none hget

/-- What the reader of a field leaves. -/
abbrev Field {α : Type} (entries : InlineTable F) (field : McpField) (read : Reader F α) (o : Option α) : Prop :=
  readField field.key read entries = .ok o

theorem field_pairs {field : McpField} {o : Option (List (Str × Str))}
    (hget : get field.key entries = ((o.bind nonEmpty).map tableFromPairs).bind TomlItem.intoValue)
    (hsorted : ∀ m, o = some m → SortedAssoc.Sorted m) : Field entries field (readMap readString) (o.bind nonEmpty) :=
  readField_of_reads_self hget fun m hm => reads_tableFromPairs (hsorted m (bind_nonEmpty_eq_some hm))

theorem Holds.transport_fields (hholds : Holds ops config entries) (hsorted : config.transport.Sorted)
    {raw : RawMcpServerConfig F D} (hraw : raw = config.transport.savedRaw) :
    Field entries .command readString raw.command ∧ Field entries .args (readArray readString) raw.args ∧
      Field entries .env (readMap readString) raw.env ∧ Field entries .envVars (readArray readEnvVar) raw.envVars ∧
      Field entries .cwd readString raw.cwd ∧ Field entries .httpHeaders (readMap readString) raw.httpHeaders ∧
      Field entries .envHttpHeaders (readMap readString) raw.envHttpHeaders ∧ Field entries .url readString raw.url ∧
      Field entries .bearerTokenEnvVar readString raw.bearerTokenEnvVar := by
  subst hraw
  obtain ⟨transport⟩ := config
  cases transport with
  | stdio command args env envVars cwd =>
    refine ⟨?_, ?_, ?_, ?_, ?_, readField_none (hholds .httpHeaders), readField_none (hholds .envHttpHeaders),
      readField_none (hholds .url), readField_none (hholds .bearerTokenEnvVar)⟩
    · exact readField_of_reads_self (o := some command) (hholds .command) fun s _ => reads_textItem s
    · exact readField_of_reads_self (hholds .args) fun xs _ => reads_arrayFromIter xs
    · exact field_pairs (hholds .env) hsorted
    · exact readField_of_reads_self (hholds .envVars) fun xs _ => reads_arrayFromEnvVars xs
    · exact readField_of_reads_self (hholds .cwd) fun s _ => reads_textItem s
  | streamableHttp url bearerTokenEnvVar httpHeaders envHttpHeaders =>
    refine ⟨readField_none (hholds .command), readField_none (hholds .args), readField_none (hholds .env),
      readField_none (hholds .envVars), readField_none (hholds .cwd), ?_, ?_, ?_, ?_⟩
    · exact field_pairs (hholds .httpHeaders) hsorted.1
    · exact field_pairs (hholds .envHttpHeaders) hsorted.2
    · exact readField_of_reads_self (o := some url) (hholds .url) fun s _ => reads_textItem s
    · exact readField_of_reads_self (hholds .bearerTokenEnvVar) fun s _ => reads_textItem s

theorem Holds.read (hholds : Holds ops config entries) (hreadable : config.Readable ops) {tool : Option D}
    (htool : Field entries .toolTimeoutSec (readDuration ops) tool) :
    RawMcpServerConfig.read ops entries = .ok (config.savedRaw ops tool) := by
  obtain ⟨hcommand, hargs, henv, henvVars, hcwd, hhttp, henvHttp, hurl, hbearer⟩ :=
    hholds.transport_fields hreadable.sorted rfl
  have hauth : Field entries .auth readAuth (config.savedRaw ops tool).auth :=
    readField_ite (hholds .auth) (reads_value rfl)
  have henabled : Field entries .enabled readBool (config.savedRaw ops tool).enabled :=
    readField_ite (hholds .enabled) (reads_value rfl)
  have henvironment : Field entries .environmentId readString (config.savedRaw ops tool).environmentId :=
    readField_ite (hholds .environmentId) (reads_textItem _)
  have hrequired : Field entries .required readBool (config.savedRaw ops tool).required :=
    readField_ite (hholds .required) (reads_value rfl)
  have hparallel : Field entries .supportsParallelToolCalls readBool (config.savedRaw ops tool).supportsParallelToolCalls :=
    readField_ite (hholds .supportsParallelToolCalls) (reads_value rfl)
  have homit : Field entries .omitToolsFrom (readArray readSurface) config.omitToolsFrom :=
    readField_of_reads_self (hholds .omitToolsFrom) fun surfaces _ => reads_surfaces surfaces
  have hstartup : Field entries .startupTimeoutSec (readF64 ops) (config.startupTimeoutSec.map ops.asSecsF64) :=
    readField_of_reads (hholds .startupTimeoutSec) fun d _ => reads_value rfl
  have hmode : Field entries .defaultToolsApprovalMode readApproval config.defaultToolsApprovalMode :=
    readField_of_reads_self (hholds .defaultToolsApprovalMode) fun mode _ => reads_approval mode
  have henabledTools : Field entries .enabledTools (readArray readString) (config.enabledTools.bind nonEmpty) :=
    readField_of_reads_self (hholds .enabledTools) fun xs _ => reads_arrayFromIter xs
  have hdisabledTools : Field entries .disabledTools (readArray readString) (config.disabledTools.bind nonEmpty) :=
    readField_of_reads_self (hholds .disabledTools) fun xs _ => reads_arrayFromIter xs
  have hscopes : Field entries .scopes (readArray readString) (config.scopes.bind nonEmpty) :=
    readField_of_reads_self (hholds .scopes) fun xs _ => reads_arrayFromIter xs
  have hoauth : Field entries .oauth readOAuth (config.savedRaw ops tool).oauth :=
    readField_of_reads (hholds .oauth) fun clientId _ => reads_oauth clientId
  have hresource : Field entries .oauthResource readString (config.oauthResource.bind nonEmpty) :=
    readField_of_reads_self (hholds .oauthResource) fun s _ => reads_textItem s
  have htools : Field entries .tools (readMap readTool) (nonEmpty config.tools) :=
    readField_of_reads_self (hholds .tools) fun m hm => reads_toolsTable (nonEmpty_eq_some hm ▸ hreadable.tools)
  have htoken : Field entries .bearerToken readString none := readField_none (hholds .bearerToken)
  have hms : Field entries .startupTimeoutMs readU64 none := readField_none (hholds .startupTimeoutMs)
  have hname : Field entries .name readString none := readField_none (hholds .name)
  rw [RawMcpServerConfig.read]
  simp only [hcommand, hargs, henv, henvVars, hcwd, hhttp, henvHttp, hurl, hbearer, hauth, henabled, henvironment, hrequired,
    hparallel, homit, hstartup, hmode, henabledTools, hdisabledTools, hscopes, hoauth, hresource, htools, htoken, hms, hname,
    htool]
  rw [McpServerConfig.savedRaw]
  cases config.transport <;> rfl

section

variable (hreadable : config.Readable ops)

include hreadable

theorem startupTimeout_savedRaw (tool : Option D) :
    ∃ startup, (config.savedRaw ops tool).startupTimeout ops = .ok startup := by
  have hfield : (config.savedRaw ops tool).startupTimeoutSec = config.startupTimeoutSec.map ops.asSecsF64 := rfl
  have hms : (config.savedRaw ops tool).startupTimeoutMs = none := by
    rw [McpServerConfig.savedRaw]
    cases config.transport <;> rfl
  rw [startupTimeout, hfield, hms]
  cases hstartup : config.startupTimeoutSec with
  | none => exact ⟨none, rfl⟩
  | some d =>
    obtain ⟨d', hd'⟩ := hreadable.startup d hstartup
    refine ⟨some d', ?_⟩
    show (do let d ← durationFromSecs ops (ops.asSecsF64 d); return some d) = _
    rw [durationFromSecs, hd']
    rfl

/-- The transport of a saved server is the server's, with empty maps taken as absent. -/
theorem transport_savedRaw (tool : Option D) :
    (config.savedRaw ops tool).transport = .ok config.transport.withoutEmptyMaps := by
  have hstdio := hreadable.stdioOnly
  rw [McpServerConfig.StdioOnly] at hstdio
  cases htransport : config.transport with
  | stdio command args env envVars cwd =>
    rw [htransport] at hstdio
    obtain ⟨hauth, hoauth, hresource, hsources⟩ := hstdio
    have hforM : envVars.forM McpServerEnvVar.validateSource = .ok () := forM_eq_ok.mpr hsources
    simp only [McpServerConfig.savedRaw, htransport, McpServerTransportConfig.savedRaw, transport,
      stdioTransport, hauth, hoauth, hresource, getD_nonEmpty, hforM]
    rfl
  | streamableHttp url bearerTokenEnvVar httpHeaders envHttpHeaders =>
    simp only [McpServerConfig.savedRaw, htransport]
    rfl

theorem tryFrom_savedRaw (tool : Option D) :
    ∃ startup, (config.savedRaw ops tool).tryFrom ops = .ok (config.reread startup tool) := by
  obtain ⟨startup, hstartup⟩ := startupTimeout_savedRaw hreadable tool
  refine ⟨startup, ?_⟩
  have hauth : (if config.auth = .chatGpt then some McpServerAuth.chatGpt else none).getD .oAuth = config.auth := by
    cases config.auth <;> rfl
  have henabled : (if !config.enabled then some false else none).getD true = config.enabled := by
    cases config.enabled <;> rfl
  have hrequired : (if config.required then some true else none).getD false = config.required := by
    cases config.required <;> rfl
  have hparallel : (if config.supportsParallelToolCalls then some true else none).getD false =
      config.supportsParallelToolCalls := by
    cases config.supportsParallelToolCalls <;> rfl
  have henvironment : (if !config.isLocalEnvironment then some config.environmentId else none).getD
      defaultMcpServerEnvironmentId = config.environmentId := by
    cases hlocal : config.isLocalEnvironment with
    | false => rfl
    | true => exact (eq_of_beq hlocal).symm
  rw [tryFrom, hstartup, transport_savedRaw hreadable]
  show ok _ = ok _
  simp only [McpServerConfig.savedRaw, McpServerConfig.reread, getD_nonEmpty, hauth, henabled, hrequired, hparallel,
    henvironment]

end

/-- A server that was read from a config is read back from what is written for it. -/
theorem Holds.exists_read (hholds : Holds ops config entries) (hreadable : config.Readable ops) :
    ∃ startup tool, McpServerConfig.read ops (.table entries) = .ok (config.reread startup tool) := by
  obtain ⟨tool, htool⟩ : ∃ tool, Field entries .toolTimeoutSec (readDuration ops) tool := by
    have hget := hholds .toolTimeoutSec
    rw [writtenField] at hget
    cases hd : config.toolTimeoutSec with
    | none =>
      rw [hd] at hget
      exact ⟨none, readField_none hget⟩
    | some d =>
      rw [hd] at hget
      obtain ⟨d', hd'⟩ := hreadable.tool d hd
      exact ⟨some d', readField_of_reads (o := some d) (g := fun _ => d') hget fun e he =>
        some.inj he ▸ reads_duration ops hd'⟩
  obtain ⟨startup, hfrom⟩ := tryFrom_savedRaw hreadable tool
  refine ⟨startup, tool, ?_⟩
  rw [McpServerConfig.read, hholds.read hreadable htool]
  exact hfrom

end Saved

end Dcode.Config
