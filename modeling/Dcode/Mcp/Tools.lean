import Dcode.Config.McpTypes

/-!
# MCP tools

Which tools of a server are exposed, and the names under which the model sees them. A raw tool is named by its server,
namespace, connector and tool names. The model sees a namespace and a name made of ASCII letters, digits and underscores,
short enough for the API; where raw tools would get the same names, a piece of the hash of the raw names tells them apart.
-/

namespace Dcode.Mcp

/-- The tools of a server that the configuration exposes. -/
structure ToolFilter where
  enabled : Option (List Str)
  disabled : List Str
deriving DecidableEq

namespace ToolFilter

/-- `ToolFilter::from_config`. -/
def fromConfig {D : Type} (cfg : Config.McpServerConfig D) : ToolFilter :=
  { enabled := cfg.enabledTools, disabled := cfg.disabledTools.getD [] }

/-- A tool is enabled, where that is said, and not disabled. -/
def allows (filter : ToolFilter) (toolName : Str) : Bool :=
  match filter.enabled with
  | some enabled => if toolName ∉ enabled then false else decide (toolName ∉ filter.disabled)
  | none => decide (toolName ∉ filter.disabled)

end ToolFilter

/-! ## Tools -/

/-- `ToolInfo`. What naming does not look at is one field of any type. -/
structure ToolInfo (P : Type) where
  serverName : Str
  callableName : Str
  callableNamespace : Str
  toolName : Str
  connectorId : Option Str
  rest : P
deriving DecidableEq

/-- The raw names of a tool. -/
structure RawTool where
  serverName : Str
  callableNamespace : Str
  connectorId : Str
  callableName : Str
  toolName : Str
deriving DecidableEq

/-- The raw names of a tool. An absent connector counts as an empty one. -/
def ToolInfo.raw {P : Type} (tool : ToolInfo P) : RawTool where
  serverName := tool.serverName
  callableNamespace := tool.callableNamespace
  connectorId := tool.connectorId.getD []
  callableName := tool.callableName
  toolName := tool.toolName

/-- The tool under the names the model sees. -/
def ToolInfo.named {P : Type} (tool : ToolInfo P) (parts : Str × Str) : ToolInfo P :=
  { tool with callableNamespace := parts.1, callableName := parts.2 }

/-- The separator of the identities. -/
def nul : Char := Char.ofNat 0

/-- `raw_namespace_identity`. -/
def RawTool.namespaceIdentity (raw : RawTool) : Str :=
  raw.serverName ++ nul :: (raw.callableNamespace ++ nul :: raw.connectorId)

/-- `raw_tool_identity`. -/
def RawTool.identity (raw : RawTool) : Str :=
  raw.namespaceIdentity ++ nul :: (raw.callableName ++ nul :: raw.toolName)

/-! ## Names -/

/-- Every other character becomes an underscore. -/
def sanitizeResponsesApiToolName (name : Str) : Str :=
  let sanitized := name.map fun c => if c.isAlphanum || c == '_' then c else '_'
  if sanitized.isEmpty then ['_'] else sanitized

def legacyMcpToolNamePrefix : Str := "mcp__".toList

def mcpToolNameDelimiter : Str := "__".toList

def maxToolNameLength : Nat := 64

def callableNameHashLen : Nat := 12

/-- `callable_namespace_with_prefix`: at most one prefix. -/
def callableNamespaceWithPrefix (callableNamespace : Str) (prefixMcpToolNames : Bool) : Str :=
  if !prefixMcpToolNames || legacyMcpToolNamePrefix.isPrefixOf callableNamespace then callableNamespace
  else legacyMcpToolNamePrefix ++ callableNamespace

/-- `sha1_hex`: forty hexadecimal digits. -/
structure Sha1Hex where
  hex : Str → Str
  length_hex : ∀ s, (hex s).length = 40
  isAlphanum_hex : ∀ s, ∀ c ∈ hex s, c.isAlphanum

section Naming

variable (sha1 : Sha1Hex)

/-- An underscore and the first digits of the hash. -/
def callableNameHashSuffix (rawIdentity : Str) : Str := '_' :: (sha1.hex rawIdentity).take callableNameHashLen

/-- `append_hash_suffix`. -/
def appendHashSuffix (value rawIdentity : Str) : Str := value ++ callableNameHashSuffix sha1 rawIdentity

/-- The hash stands before a delimiter at the end. -/
def appendNamespaceHashSuffix (callableNamespace rawIdentity : Str) : Str :=
  match Str.stripSuffix mcpToolNameDelimiter callableNamespace with
  | some stem => stem ++ callableNameHashSuffix sha1 rawIdentity ++ mcpToolNameDelimiter
  | none => appendHashSuffix sha1 callableNamespace rawIdentity

variable (callableNamespace toolName rawIdentity : Str)

/-- Cuts the tool name, or else the namespace, to make room for the hash. -/
def fitCallablePartsWithHash (reservedLen : Nat) : Str × Str :=
  let suffix := callableNameHashSuffix sha1 rawIdentity
  let maxToolLen := maxToolNameLength - (Str.byteLen callableNamespace + reservedLen)
  if Str.byteLen suffix ≤ maxToolLen then
    (callableNamespace, toolName.take (maxToolLen - Str.byteLen suffix) ++ suffix)
  else (callableNamespace.take (maxToolNameLength - (Str.byteLen suffix + reservedLen)), suffix)

/-- The hash input of an attempt. -/
def hashInput (rawIdentity : Str) (attempt : Nat) : Str :=
  if attempt = 0 then rawIdentity else rawIdentity ++ nul :: Nat.toDigits 10 attempt

/-- The names of an attempt. -/
def attemptParts (reservedLen attempt : Nat) : Str × Str :=
  fitCallablePartsWithHash sha1 callableNamespace toolName (hashInput rawIdentity attempt) reservedLen

/-- The retries from an attempt on, with the attempts that are left until the counter stays where it is. No result means
that the loop does not end. -/
def retryCallableParts (callableNamespace toolName rawIdentity : Str) (usedNames : List Str) (reservedLen : Nat) :
    Nat → Nat → Option ((Str × Str) × List Str)
  | 0, _ => none
  | left + 1, attempt =>
    let parts := attemptParts sha1 callableNamespace toolName rawIdentity reservedLen attempt
    if parts.1 ++ parts.2 ∈ usedNames then
      retryCallableParts callableNamespace toolName rawIdentity usedNames reservedLen left (attempt + 1)
    else some (parts, (parts.1 ++ parts.2) :: usedNames)

/-- The values of the attempt counter, a `u32` that saturates. -/
def attemptCount : Nat := 2 ^ 32

/-- The names of a tool, and the used names with them. -/
def uniqueCallableParts (usedNames : List Str) (reservedLen : Nat) : Option ((Str × Str) × List Str) :=
  let modelName := callableNamespace ++ toolName
  if Str.byteLen modelName + reservedLen ≤ maxToolNameLength ∧ modelName ∉ usedNames then
    some ((callableNamespace, toolName), modelName :: usedNames)
  else retryCallableParts sha1 callableNamespace toolName rawIdentity usedNames reservedLen attemptCount 0

end Naming

/-! ## Normalization -/

/-- The names of `CallableToolCandidate`. -/
structure CandidateNames where
  rawNamespaceIdentity : Str
  rawToolIdentity : Str
  callableNamespace : Str
  callableName : Str
deriving DecidableEq

/-- A tool with the names it has so far. -/
structure CallableToolCandidate (P : Type) extends CandidateNames where
  tool : ToolInfo P

section Normalize

variable {P : Type} (sha1 : Sha1Hex) (prefixMcpToolNames : Bool) (nonPrefixedMcpToolServers : List Str)

/-- The names a raw tool starts with. -/
def candidateNames (raw : RawTool) : CandidateNames where
  rawNamespaceIdentity := raw.namespaceIdentity
  rawToolIdentity := raw.identity
  callableNamespace := callableNamespaceWithPrefix (sanitizeResponsesApiToolName raw.callableNamespace)
    (prefixMcpToolNames && !(nonPrefixedMcpToolServers.contains raw.serverName))
  callableName := sanitizeResponsesApiToolName raw.callableName

/-- The candidates of the tools, without those whose identity was seen. -/
def collectCandidates : List Str → List (ToolInfo P) → List (CallableToolCandidate P)
  | _, [] => []
  | seen, tool :: tools =>
    if tool.raw.identity ∈ seen then collectCandidates seen tools
    else
      { candidateNames prefixMcpToolNames nonPrefixedMcpToolServers tool.raw with tool := tool } ::
        collectCandidates (tool.raw.identity :: seen) tools

/-- More than one identity stands behind a base. -/
def collides {B : Type} [DecidableEq B] (identities : List (B × Str)) (base : B) : Bool :=
  decide (1 < ((identities.filter fun e => e.1 = base).map Prod.snd).dedup.length)

variable (names : List CandidateNames)

/-- The namespaces with their identities. -/
def namespaceIdentities : List (Str × Str) :=
  names.map fun c => (c.callableNamespace, c.rawNamespaceIdentity)

/-- The tools with their identities. -/
def toolIdentities : List ((Str × Str) × Str) :=
  names.map fun c => ((c.callableNamespace, c.callableName), c.rawToolIdentity)

/-- Adds the hash to a namespace that collides among the candidates. -/
def hashNamespace (c : CandidateNames) : CandidateNames :=
  if collides (namespaceIdentities names) c.callableNamespace then
    { c with callableNamespace := appendNamespaceHashSuffix sha1 c.callableNamespace c.rawNamespaceIdentity }
  else c

/-- Adds the hash to a tool name that collides among the candidates. -/
def hashName (c : CandidateNames) : CandidateNames :=
  if collides (toolIdentities names) (c.callableNamespace, c.callableName) then
    { c with callableName := appendHashSuffix sha1 c.callableName c.rawToolIdentity }
  else c

/-- Changes the names of every candidate, looking at the names of all. -/
def renameAll (rename : List CandidateNames → CandidateNames → CandidateNames)
    (candidates : List (CallableToolCandidate P)) : List (CallableToolCandidate P) :=
  let names := candidates.map CallableToolCandidate.toCandidateNames
  candidates.map fun c => { c with toCandidateNames := rename names c.toCandidateNames }

/-- The candidates in the order of their identities. -/
def sortedCandidates (tools : List (ToolInfo P)) : List (CallableToolCandidate P) :=
  let candidates := collectCandidates prefixMcpToolNames nonPrefixedMcpToolServers [] tools
  let candidates := renameAll (hashName sha1) (renameAll (hashNamespace sha1) candidates)
  candidates.insertionSort fun left right => left.rawToolIdentity ≤ right.rawToolIdentity

/-- Gives each candidate its final names. -/
def nameTools : List Str → List (CallableToolCandidate P) → Option (List (ToolInfo P))
  | _, [] => some []
  | usedNames, c :: candidates => do
    let (parts, usedNames) ← uniqueCallableParts sha1 c.callableNamespace c.callableName c.rawToolIdentity usedNames
      (Str.byteLen mcpToolNameDelimiter)
    let rest ← nameTools usedNames candidates
    return c.tool.named parts :: rest

/-- The tools under names of their own, or none if no attempt ends. -/
def normalizeToolsForModelWithPrefix (tools : List (ToolInfo P)) : Option (List (ToolInfo P)) :=
  nameTools sha1 [] (sortedCandidates sha1 prefixMcpToolNames nonPrefixedMcpToolServers tools)

end Normalize

end Dcode.Mcp
