import Dcode.Config.McpTypes

/-!
# Saving MCP servers

A config file is edited as a document, so that what an edit does not touch stays as the user wrote it. Saving the MCP
servers writes the table of each server anew: fields at their default and empty lists are left out.
-/

namespace Dcode.Config

open IndexMap

section Helpers

variable {F D : Type}

/-- A list, if it has an element. -/
def nonEmpty {α : Type} (xs : List α) : Option (List α) := if xs.isEmpty then none else some xs

/-- `toml_edit::value` of a text. -/
def textItem (s : Str) : TomlItem F := .value (.string s)

def arrayFromIter (xs : List Str) : TomlItem F := .value (.array (xs.map .string))

/-- The element of `array_from_env_vars` for a variable. -/
def envVarValue : McpServerEnvVar → TomlValue F
  | .name name => .string name
  | .config name source =>
    let table := IndexMap.insert "name".toList (.string name) []
    match source with
    | none => .table table
    | some source => .table (IndexMap.insert "source".toList (.string source) table)

def arrayFromEnvVars (envVars : List McpServerEnvVar) : TomlItem F := .value (.array (envVars.map envVarValue))

def tableFromPairs (pairs : List (Str × Str)) : TomlItem F :=
  .table (IndexMap.ofEntries (pairs.map fun e => (e.1, textItem e.2)))

def serializeMcpServerTool (config : McpServerToolConfig) : TomlItem F :=
  match config.approvalMode with
  | none => .table []
  | some mode => .table (IndexMap.insert "approval_mode".toList (textItem mode.text) [])

/-- The table of the `tools` field. -/
def toolsTable (tools : List (Str × McpServerToolConfig)) : TomlItem F :=
  .table (IndexMap.ofEntries (tools.map fun e => (e.1, serializeMcpServerTool e.2)))

variable (ops : Seconds F D) (config : McpServerConfig D)

def writtenField : McpField → Option (TomlItem F)
  | .command => match config.transport with
    | .stdio command _ _ _ _ => some (textItem command)
    | .streamableHttp .. => none
  | .args => match config.transport with
    | .stdio _ args _ _ _ => (nonEmpty args).map arrayFromIter
    | .streamableHttp .. => none
  | .env => match config.transport with
    | .stdio _ _ env _ _ => (env.bind nonEmpty).map tableFromPairs
    | .streamableHttp .. => none
  | .envVars => match config.transport with
    | .stdio _ _ _ envVars _ => (nonEmpty envVars).map arrayFromEnvVars
    | .streamableHttp .. => none
  | .cwd => match config.transport with
    | .stdio _ _ _ _ cwd => cwd.map textItem
    | .streamableHttp .. => none
  | .url => match config.transport with
    | .stdio .. => none
    | .streamableHttp url _ _ _ => some (textItem url)
  | .bearerTokenEnvVar => match config.transport with
    | .stdio .. => none
    | .streamableHttp _ bearerTokenEnvVar _ _ => bearerTokenEnvVar.map textItem
  | .httpHeaders => match config.transport with
    | .stdio .. => none
    | .streamableHttp _ _ httpHeaders _ => (httpHeaders.bind nonEmpty).map tableFromPairs
  | .envHttpHeaders => match config.transport with
    | .stdio .. => none
    | .streamableHttp _ _ _ envHttpHeaders => (envHttpHeaders.bind nonEmpty).map tableFromPairs
  | .auth => if config.auth = .chatGpt then some (textItem "chatgpt".toList) else none
  | .enabled => if !config.enabled then some (.value (.boolean false)) else none
  | .environmentId => if !config.isLocalEnvironment then some (textItem config.environmentId) else none
  | .required => if config.required then some (.value (.boolean true)) else none
  | .supportsParallelToolCalls => if config.supportsParallelToolCalls then some (.value (.boolean true)) else none
  | .omitToolsFrom => config.omitToolsFrom.map fun surfaces => arrayFromIter (surfaces.map ToolExposureSurface.text)
  | .startupTimeoutSec => config.startupTimeoutSec.map fun d => .value (.float (ops.asSecsF64 d))
  | .toolTimeoutSec => config.toolTimeoutSec.map fun d => .value (.float (ops.asSecsF64 d))
  | .defaultToolsApprovalMode => config.defaultToolsApprovalMode.map fun mode => textItem mode.text
  | .enabledTools => (config.enabledTools.bind nonEmpty).map arrayFromIter
  | .disabledTools => (config.disabledTools.bind nonEmpty).map arrayFromIter
  | .scopes => (config.scopes.bind nonEmpty).map arrayFromIter
  | .oauth => ((config.oauth.bind McpServerOAuthConfig.clientId).bind nonEmpty).map fun clientId =>
    .table (IndexMap.insert "client_id".toList (textItem clientId) [])
  | .oauthResource => (config.oauthResource.bind nonEmpty).map textItem
  | .tools => (nonEmpty config.tools).map toolsTable
  | .bearerToken | .startupTimeoutMs | .name => none

def writeOrder : List McpField :=
  [.command, .args, .env, .envVars, .cwd, .url, .bearerTokenEnvVar, .httpHeaders, .envHttpHeaders, .auth, .enabled,
    .environmentId, .required, .supportsParallelToolCalls, .omitToolsFrom, .startupTimeoutSec, .toolTimeoutSec,
    .defaultToolsApprovalMode, .enabledTools, .disabledTools, .scopes, .oauth, .oauthResource, .tools]

/-- Writes a field into a table. -/
def writeField (entry : TomlTable F) (field : McpField) : TomlTable F :=
  match writtenField ops config field with
  | none => entry
  | some item => IndexMap.insert field.key item entry

def serializeMcpServerTable : TomlTable F := writeOrder.foldl (writeField ops config) []

def serializeMcpServer : TomlItem F := .table (serializeMcpServerTable ops config)

def serializeMcpServerInline : InlineTable F :=
  TomlItem.intoInlineTable (serializeMcpServerTable ops config)

def mergeInlineTable (existing replacement : InlineTable F) : InlineTable F :=
  replacement.foldl (fun table e => IndexMap.insert e.1 e.2 table)
    (IndexMap.retain (fun key => (IndexMap.get key replacement).isSome) existing)

def tableFromInline (inline : InlineTable F) : TomlTable F := IndexMap.ofEntries (inline.map fun e => (e.1, .value e.2))

def ensureTableForWrite : TomlItem F → Option (TomlTable F)
  | .table table => some table
  | .value (.table inline) => some (tableFromInline inline)
  | .value _ => some []
  | .none => some []
  | .arrayOfTables _ => none

/-- The item a server is saved as, next to the item that is there. An inline table stays one. -/
def replacementFor : Option (TomlItem F) → TomlItem F
  | some (.value (.table inline)) => .value (.table (mergeInlineTable inline (serializeMcpServerInline ops config)))
  | some _ => serializeMcpServer ops config
  | none => serializeMcpServer ops config

/-- Saves one server into the table. -/
def writeServer (table : TomlTable F) (server : Str × McpServerConfig D) : TomlTable F :=
  IndexMap.insert server.1 (replacementFor ops server.2 (TomlTable.get server.1 table)) table

/-- The table with the servers in it and no other. -/
def writeServers (servers : List (Str × McpServerConfig D)) (table : TomlTable F) : TomlTable F :=
  let keysToRemove := (IndexMap.keys table).filter fun key => (SortedAssoc.get key servers).isNone
  servers.foldl (writeServer ops) (keysToRemove.foldl (fun table key => IndexMap.remove key table) table)

end Helpers

/-! ## Documents -/

/-- `ConfigDocument`: a document whose keys are unique where servers are saved. -/
structure ConfigDocument (F : Type) where
  doc : TomlTable F
  uniqueKeys : IndexMap.UniqueKeys doc
  uniqueServers : ∀ table, IndexMap.get mcpServersKey doc = some (.table table) → IndexMap.UniqueKeys table

namespace ConfigDocument

variable {F D : Type} (document : ConfigDocument F)

/-- What the document says when it is printed and parsed. -/
def value : InlineTable F := TomlItem.intoInlineTable document.doc

theorem removed_servers (doc : TomlTable F) :
    ∀ table, IndexMap.get mcpServersKey (remove mcpServersKey doc) = some (.table table) →
      IndexMap.UniqueKeys table := by
  intro table h
  rw [get_remove, if_pos rfl] at h
  cases h

theorem inserted_servers (doc : TomlTable F) {servers : TomlTable F} (h : IndexMap.UniqueKeys servers) :
    ∀ table, IndexMap.get mcpServersKey (IndexMap.insert mcpServersKey (.table servers) doc) = some (.table table) →
      IndexMap.UniqueKeys table := by
  intro table hget
  rw [get_insert, if_pos rfl] at hget
  obtain rfl := TomlItem.table.inj (Option.some.inj hget)
  exact h

/-- `clear` of `mcp_servers`. -/
def clearServers : Bool × ConfigDocument F :=
  ((IndexMap.get mcpServersKey document.doc).isSome,
    { doc := IndexMap.remove mcpServersKey document.doc
      uniqueKeys := document.uniqueKeys.remove mcpServersKey
      uniqueServers := removed_servers document.doc })

/-- The table of the servers, made if there is none to write to. -/
def serversTable : TomlTable F :=
  match TomlTable.get mcpServersKey document.doc with
  | none => []
  | some item => (ensureTableForWrite item).getD []

theorem uniqueKeys_serversTable : IndexMap.UniqueKeys document.serversTable := by
  rw [serversTable]
  cases hget : TomlTable.get mcpServersKey document.doc with
  | none => exact uniqueKeys_nil
  | some item =>
    cases item with
    | none | arrayOfTables tables => exact uniqueKeys_nil
    | table table =>
      obtain ⟨hitem, -⟩ := Option.filter_eq_some_iff.mp hget
      exact document.uniqueServers table hitem
    | value v =>
      cases v with
      | table inline => exact uniqueKeys_ofEntries _
      | _ => exact uniqueKeys_nil

theorem uniqueKeys_writeServers (ops : Seconds F D) (servers : List (Str × McpServerConfig D)) {table : TomlTable F}
    (h : IndexMap.UniqueKeys table) : IndexMap.UniqueKeys (writeServers ops servers table) := by
  refine List.foldlRecOn (motive := IndexMap.UniqueKeys) _ _ ?_ fun _ h server _ => h.insert _ _
  exact List.foldlRecOn (motive := IndexMap.UniqueKeys) _ _ h fun _ h key _ => h.remove key

/-- `replace_mcp_servers`. Says whether the document was changed. -/
def replaceMcpServers (ops : Seconds F D) (document : ConfigDocument F) (servers : List (Str × McpServerConfig D)) :
    Bool × ConfigDocument F :=
  if servers.isEmpty then document.clearServers
  else
    (true,
      { doc := IndexMap.insert mcpServersKey (.table (writeServers ops servers document.serversTable)) document.doc
        uniqueKeys := document.uniqueKeys.insert _ _
        uniqueServers := inserted_servers document.doc (uniqueKeys_writeServers ops servers document.uniqueKeys_serversTable) })

end ConfigDocument

end Dcode.Config
