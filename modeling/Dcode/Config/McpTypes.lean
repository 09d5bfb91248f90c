import Dcode.Lib.Toml
import Mathlib.Data.Char

/-!
# MCP server configurations

The configuration of the MCP servers and how it is read from a TOML config: a raw table of optional fields, checked and
turned into a transport with its settings.
-/

namespace Dcode.Config

/-! ## Types -/

inductive AppToolApproval where
  | auto
  | prompt
  | writes
  | approve
deriving DecidableEq

structure McpServerToolConfig where
  approvalMode : Option AppToolApproval
deriving DecidableEq

/-- A variable handed to a server, by name alone or with its source. -/
inductive McpServerEnvVar where
  | name (name : Str)
  | config (name : Str) (source : Option Str)
deriving DecidableEq

structure McpServerOAuthConfig where
  clientId : Option Str
deriving DecidableEq

inductive McpServerAuth where
  | oAuth
  | chatGpt
deriving DecidableEq

inductive ToolExposureSurface where
  | codeMode
  | deferred
  | direct
deriving DecidableEq

/-- `McpServerTransportConfig`. Maps are their entries in key order. -/
inductive McpServerTransportConfig where
  | stdio (command : Str) (args : List Str) (env : Option (List (Str × Str))) (envVars : List McpServerEnvVar)
      (cwd : Option Str)
  | streamableHttp (url : Str) (bearerTokenEnvVar : Option Str) (httpHeaders envHttpHeaders : Option (List (Str × Str)))
deriving DecidableEq

/-- `McpServerConfig`, over a type of durations. -/
structure McpServerConfig (D : Type) where
  transport : McpServerTransportConfig
  auth : McpServerAuth
  environmentId : Str
  enabled : Bool
  required : Bool
  supportsParallelToolCalls : Bool
  omitToolsFrom : Option (List ToolExposureSurface)
  startupTimeoutSec : Option D
  toolTimeoutSec : Option D
  defaultToolsApprovalMode : Option AppToolApproval
  enabledTools : Option (List Str)
  disabledTools : Option (List Str)
  scopes : Option (List Str)
  oauth : Option McpServerOAuthConfig
  oauthResource : Option Str
  tools : List (Str × McpServerToolConfig)

def defaultMcpServerEnvironmentId : Str := "local".toList

namespace McpServerConfig

variable {D : Type}

def isLocalEnvironment (config : McpServerConfig D) : Bool := config.environmentId == defaultMcpServerEnvironmentId

end McpServerConfig

/-- Why a configuration is not accepted: a value of another type than the field's, as serde reports it, or a check of the
code with its message. -/
inductive ConfigError where
  | invalidType
  | custom (message : Str)
deriving DecidableEq

namespace McpServerEnvVar

def source : McpServerEnvVar → Option Str
  | name _ => none
  | config _ source => source

/-- A source is `local` or `remote`. -/
def validateSource (envVar : McpServerEnvVar) : Except ConfigError Unit :=
  match envVar.source with
  | none => .ok ()
  | some source =>
    if source = "local".toList ∨ source = "remote".toList then .ok ()
    else .error (.custom ("unsupported env_vars source `".toList ++ source ++ "`; expected `local` or `remote`".toList))

end McpServerEnvVar

/-- The conversions between seconds as `f64` and `Duration`. A duration that was read is written as a number that can be
read again: it is finite, not negative and not larger than what `Duration` holds. -/
structure Seconds (F D : Type) where
  ofInt : Int → F
  tryFromSecsF64 : F → Except Str D
  asSecsF64 : D → F
  fromMillis : Nat → D
  reread : ∀ x d, tryFromSecsF64 x = .ok d → ∃ d', tryFromSecsF64 (asSecsF64 d) = .ok d'
  reread_millis : ∀ ms < 2 ^ 64, ∃ d', tryFromSecsF64 (asSecsF64 (fromMillis ms)) = .ok d'

/-! ## Reading values -/

/-- Reading a value of a type. -/
abbrev Reader (F α : Type) := TomlValue F → Except ConfigError α

section Readers

variable {F D α : Type}

/-- Reads a text. -/
def readString : Reader F Str
  | .string s => .ok s
  | _ => .error .invalidType

/-- Reads a truth value. -/
def readBool : Reader F Bool
  | .boolean b => .ok b
  | _ => .error .invalidType

/-- Reads an integer in range. -/
def readU64 : Reader F Nat
  | .integer n => if 0 ≤ n ∧ n < 2 ^ 64 then .ok n.toNat else .error .invalidType
  | _ => .error .invalidType

/-- Reads a number; an integer is one too. -/
def readF64 (ops : Seconds F D) : Reader F F
  | .float x => .ok x
  | .integer n => .ok (ops.ofInt n)
  | _ => .error .invalidType

/-- `Duration::try_from_secs_f64` with the error as serde wraps it. -/
def durationFromSecs (ops : Seconds F D) (x : F) : Except ConfigError D :=
  match ops.tryFromSecsF64 x with
  | .ok d => .ok d
  | .error message => .error (.custom message)

/-- `option_duration_secs::deserialize`. -/
def readDuration (ops : Seconds F D) : Reader F D := fun v => do
  let x ← readF64 ops v
  durationFromSecs ops x

/-- Reads each element; the first error is returned. -/
def readArray (read : Reader F α) : Reader F (List α)
  | .array elems => elems.mapM read
  | _ => .error .invalidType

/-- A map keyed by strings. -/
def readMap (read : Reader F α) : Reader F (List (Str × α))
  | .table entries => do
    let entries ← entries.mapM fun e => do
      let value ← read e.2
      return (e.1, value)
    return IndexMap.collect entries
  | _ => .error .invalidType

/-- A field of a struct that may be absent. -/
def readField (key : Str) (read : Reader F α) (entries : InlineTable F) : Except ConfigError (Option α) :=
  match IndexMap.get key entries with
  | none => .ok none
  | some v => do
    let value ← read v
    return some value

/-- The name of an approval mode in a config. -/
def AppToolApproval.text : AppToolApproval → Str
  | .auto => "auto".toList
  | .prompt => "prompt".toList
  | .writes => "writes".toList
  | .approve => "approve".toList

/-- Reads an approval mode by its name. -/
def readApproval : Reader F AppToolApproval
  | .string s =>
    if s = "auto".toList then .ok .auto
    else if s = "prompt".toList then .ok .prompt
    else if s = "writes".toList then .ok .writes
    else if s = "approve".toList then .ok .approve
    else .error .invalidType
  | _ => .error .invalidType

/-- `ToolExposureSurface` as `Display` writes it. -/
def ToolExposureSurface.text : ToolExposureSurface → Str
  | .codeMode => "code_mode".toList
  | .deferred => "deferred".toList
  | .direct => "direct".toList

/-- Reads a surface by its name. -/
def readSurface : Reader F ToolExposureSurface
  | .string s =>
    if s = "code_mode".toList then .ok .codeMode
    else if s = "deferred".toList then .ok .deferred
    else if s = "direct".toList then .ok .direct
    else .error .invalidType
  | _ => .error .invalidType

/-- Reads a kind of authentication by its name. -/
def readAuth : Reader F McpServerAuth
  | .string s =>
    if s = "oauth".toList then .ok .oAuth
    else if s = "chatgpt".toList then .ok .chatGpt
    else .error .invalidType
  | _ => .error .invalidType

/-- An untagged enum: a text is a name, and a table is the struct variant, which denies unknown fields. -/
def readEnvVar : Reader F McpServerEnvVar
  | .string s => .ok (.name s)
  | .table entries => do
    if (IndexMap.keys entries).all (fun key => key == "name".toList || key == "source".toList) then
      match ← readField "name".toList readString entries with
      | none => .error .invalidType
      | some name =>
        let source ← readField "source".toList readString entries
        return .config name source
    else .error .invalidType
  | _ => .error .invalidType

/-- Reads the OAuth table. -/
def readOAuth : Reader F McpServerOAuthConfig
  | .table entries => do
    let clientId ← readField "client_id".toList readString entries
    return { clientId := clientId }
  | _ => .error .invalidType

/-- Reads the table of one tool. -/
def readTool : Reader F McpServerToolConfig
  | .table entries => do
    let approvalMode ← readField "approval_mode".toList readApproval entries
    return { approvalMode := approvalMode }
  | _ => .error .invalidType

end Readers

/-! ## The raw shape -/

/-- The fields of `RawMcpServerConfig`. -/
inductive McpField where
  | command
  | args
  | env
  | envVars
  | cwd
  | httpHeaders
  | envHttpHeaders
  | url
  | bearerToken
  | bearerTokenEnvVar
  | environmentId
  | auth
  | startupTimeoutSec
  | startupTimeoutMs
  | toolTimeoutSec
  | enabled
  | required
  | supportsParallelToolCalls
  | omitToolsFrom
  | defaultToolsApprovalMode
  | enabledTools
  | disabledTools
  | scopes
  | oauth
  | oauthResource
  | name
  | tools
deriving DecidableEq

/-- The key of a field in a config. -/
def McpField.key : McpField → Str
  | command => "command".toList
  | args => "args".toList
  | env => "env".toList
  | envVars => "env_vars".toList
  | cwd => "cwd".toList
  | httpHeaders => "http_headers".toList
  | envHttpHeaders => "env_http_headers".toList
  | url => "url".toList
  | bearerToken => "bearer_token".toList
  | bearerTokenEnvVar => "bearer_token_env_var".toList
  | environmentId => "environment_id".toList
  | auth => "auth".toList
  | startupTimeoutSec => "startup_timeout_sec".toList
  | startupTimeoutMs => "startup_timeout_ms".toList
  | toolTimeoutSec => "tool_timeout_sec".toList
  | enabled => "enabled".toList
  | required => "required".toList
  | supportsParallelToolCalls => "supports_parallel_tool_calls".toList
  | omitToolsFrom => "omit_tools_from".toList
  | defaultToolsApprovalMode => "default_tools_approval_mode".toList
  | enabledTools => "enabled_tools".toList
  | disabledTools => "disabled_tools".toList
  | scopes => "scopes".toList
  | oauth => "oauth".toList
  | oauthResource => "oauth_resource".toList
  | name => "name".toList
  | tools => "tools".toList

/-- `RawMcpServerConfig`, without the display name, which nothing reads. -/
structure RawMcpServerConfig (F D : Type) where
  command : Option Str := none
  args : Option (List Str) := none
  env : Option (List (Str × Str)) := none
  envVars : Option (List McpServerEnvVar) := none
  cwd : Option Str := none
  httpHeaders : Option (List (Str × Str)) := none
  envHttpHeaders : Option (List (Str × Str)) := none
  url : Option Str := none
  bearerToken : Option Str := none
  bearerTokenEnvVar : Option Str := none
  environmentId : Option Str := none
  auth : Option McpServerAuth := none
  startupTimeoutSec : Option F := none
  startupTimeoutMs : Option Nat := none
  toolTimeoutSec : Option D := none
  enabled : Option Bool := none
  required : Option Bool := none
  supportsParallelToolCalls : Option Bool := none
  omitToolsFrom : Option (List ToolExposureSurface) := none
  defaultToolsApprovalMode : Option AppToolApproval := none
  enabledTools : Option (List Str) := none
  disabledTools : Option (List Str) := none
  scopes : Option (List Str) := none
  oauth : Option McpServerOAuthConfig := none
  oauthResource : Option Str := none
  tools : Option (List (Str × McpServerToolConfig)) := none

section Parse

variable {F D : Type} (ops : Seconds F D)

/-- The derived deserialization. Unknown fields are ignored. -/
def RawMcpServerConfig.read (entries : InlineTable F) : Except ConfigError (RawMcpServerConfig F D) := do
  let command ← readField McpField.command.key readString entries
  let args ← readField McpField.args.key (readArray readString) entries
  let env ← readField McpField.env.key (readMap readString) entries
  let envVars ← readField McpField.envVars.key (readArray readEnvVar) entries
  let cwd ← readField McpField.cwd.key readString entries
  let httpHeaders ← readField McpField.httpHeaders.key (readMap readString) entries
  let envHttpHeaders ← readField McpField.envHttpHeaders.key (readMap readString) entries
  let url ← readField McpField.url.key readString entries
  let bearerToken ← readField McpField.bearerToken.key readString entries
  let bearerTokenEnvVar ← readField McpField.bearerTokenEnvVar.key readString entries
  let environmentId ← readField McpField.environmentId.key readString entries
  let auth ← readField McpField.auth.key readAuth entries
  let startupTimeoutSec ← readField McpField.startupTimeoutSec.key (readF64 ops) entries
  let startupTimeoutMs ← readField McpField.startupTimeoutMs.key readU64 entries
  let toolTimeoutSec ← readField McpField.toolTimeoutSec.key (readDuration ops) entries
  let enabled ← readField McpField.enabled.key readBool entries
  let required ← readField McpField.required.key readBool entries
  let supportsParallelToolCalls ← readField McpField.supportsParallelToolCalls.key readBool entries
  let omitToolsFrom ← readField McpField.omitToolsFrom.key (readArray readSurface) entries
  let defaultToolsApprovalMode ← readField McpField.defaultToolsApprovalMode.key readApproval entries
  let enabledTools ← readField McpField.enabledTools.key (readArray readString) entries
  let disabledTools ← readField McpField.disabledTools.key (readArray readString) entries
  let scopes ← readField McpField.scopes.key (readArray readString) entries
  let oauth ← readField McpField.oauth.key readOAuth entries
  let oauthResource ← readField McpField.oauthResource.key readString entries
  let _ ← readField McpField.name.key readString entries
  let tools ← readField McpField.tools.key (readMap readTool) entries
  return { command, args, env, envVars, cwd, httpHeaders, envHttpHeaders, url, bearerToken, bearerTokenEnvVar, environmentId,
           auth, startupTimeoutSec, startupTimeoutMs, toolTimeoutSec, enabled, required, supportsParallelToolCalls,
           omitToolsFrom, defaultToolsApprovalMode, enabledTools, disabledTools, scopes, oauth, oauthResource, tools }

/-- A field that the transport does not have is an error. -/
def throwIfSet {α : Type} (transport field : Str) (value : Option α) : Except ConfigError Unit :=
  match value with
  | none => .ok ()
  | some _ => .error (.custom (field ++ " is not supported for ".toList ++ transport))

namespace RawMcpServerConfig

variable (raw : RawMcpServerConfig F D)

/-- The startup timeout: seconds come before milliseconds. -/
def startupTimeout : Except ConfigError (Option D) :=
  match raw.startupTimeoutSec, raw.startupTimeoutMs with
  | some sec, _ => do
    let d ← durationFromSecs ops sec
    return some d
  | none, some ms => .ok (some (ops.fromMillis ms))
  | none, none => .ok none

/-- The transport of a raw configuration with a command. -/
def stdioTransport (command : Str) : Except ConfigError McpServerTransportConfig := do
  throwIfSet "stdio".toList McpField.url.key raw.url
  throwIfSet "stdio".toList McpField.bearerTokenEnvVar.key raw.bearerTokenEnvVar
  throwIfSet "stdio".toList McpField.bearerToken.key raw.bearerToken
  throwIfSet "stdio".toList McpField.httpHeaders.key raw.httpHeaders
  throwIfSet "stdio".toList McpField.envHttpHeaders.key raw.envHttpHeaders
  throwIfSet "stdio".toList McpField.oauth.key raw.oauth
  throwIfSet "stdio".toList McpField.oauthResource.key raw.oauthResource
  throwIfSet "stdio".toList McpField.auth.key raw.auth
  let envVars := raw.envVars.getD []
  envVars.forM McpServerEnvVar.validateSource
  return .stdio command (raw.args.getD []) raw.env envVars raw.cwd

/-- The transport of a raw configuration with a URL. -/
def httpTransport (url : Str) : Except ConfigError McpServerTransportConfig := do
  throwIfSet "streamable_http".toList McpField.args.key raw.args
  throwIfSet "streamable_http".toList McpField.env.key raw.env
  throwIfSet "streamable_http".toList McpField.envVars.key raw.envVars
  throwIfSet "streamable_http".toList McpField.cwd.key raw.cwd
  throwIfSet "streamable_http".toList McpField.bearerToken.key raw.bearerToken
  return .streamableHttp url raw.bearerTokenEnvVar raw.httpHeaders raw.envHttpHeaders

/-- The transport: a command comes before a URL. -/
def transport (raw : RawMcpServerConfig F D) : Except ConfigError McpServerTransportConfig :=
  match raw.command, raw.url with
  | some command, _ => raw.stdioTransport command
  | none, some url => raw.httpTransport url
  | none, none => .error (.custom "invalid transport".toList)

/-- `TryFrom<RawMcpServerConfig> for McpServerConfig`. -/
def tryFrom : Except ConfigError (McpServerConfig D) := do
  let startupTimeoutSec ← raw.startupTimeout ops
  let transport ← raw.transport
  return {
    transport
    auth := raw.auth.getD .oAuth
    environmentId := raw.environmentId.getD defaultMcpServerEnvironmentId
    startupTimeoutSec
    toolTimeoutSec := raw.toolTimeoutSec
    enabled := raw.enabled.getD true
    required := raw.required.getD false
    supportsParallelToolCalls := raw.supportsParallelToolCalls.getD false
    omitToolsFrom := raw.omitToolsFrom
    defaultToolsApprovalMode := raw.defaultToolsApprovalMode
    enabledTools := raw.enabledTools
    disabledTools := raw.disabledTools
    scopes := raw.scopes
    oauth := raw.oauth
    oauthResource := raw.oauthResource
    tools := raw.tools.getD [] }

end RawMcpServerConfig

/-- `McpServerConfig::deserialize`. -/
def McpServerConfig.read : Reader F (McpServerConfig D)
  | .table entries => do
    let raw ← RawMcpServerConfig.read ops entries
    raw.tryFrom ops
  | _ => .error .invalidType

def mcpServersKey : Str := "mcp_servers".toList

/-- Refuses the first server of the document with a token in its table. -/
def ensureNoInlineBearerTokens : TomlValue F → Except ConfigError Unit
  | .table servers => servers.forM fun server =>
    match server.2 with
    | .table entries =>
      if McpField.bearerToken.key ∈ IndexMap.keys entries then
        .error (.custom ("mcp_servers.".toList ++ server.1 ++
          " uses unsupported `bearer_token`; set `bearer_token_env_var`.".toList))
      else .ok ()
    | _ => .ok ()
  | _ => .ok ()

/-- `load_global_mcp_servers` over the entries of the parsed config. -/
def loadGlobalMcpServers (config : InlineTable F) : Except ConfigError (List (Str × McpServerConfig D)) :=
  match IndexMap.get mcpServersKey config with
  | none => .ok []
  | some servers => do
    ensureNoInlineBearerTokens servers
    readMap (McpServerConfig.read ops) servers

end Parse

end Dcode.Config
