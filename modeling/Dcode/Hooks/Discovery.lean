import Dcode.Hooks.HookConfig
import Dcode.Lib.Template

/-!
# Discovery of hooks

The hooks of the configuration layers and of the plugins are listed, and those that are enabled and trusted become handlers.
Hooks of managed sources are trusted as they are; any other hook is trusted when the user has stored its fingerprint under
its key. A plugin's hook refers to the directories of the plugin by variables, which are replaced one after the other in the
order in which a hash map happens to be iterated.
-/

namespace Dcode.Hooks

inductive HookSource where
  | system
  | user
  | project
  | mdm
  | sessionFlags
  | plugin
  | cloudRequirements
  | cloudManagedConfig
  | legacyManagedConfigFile
  | legacyManagedConfigMdm
  | unknown
deriving DecidableEq

inductive HookTrustStatus where
  | managed
  | untrusted
  | trusted
  | modified
deriving DecidableEq

structure ConfiguredHandler where
  eventName : HookEventName
  matcher : Option Str
  command : Str
  timeoutSec : Nat
  statusMessage : Option Str
  additionalContextLimit : Nat
  sourcePath : Str
  source : HookSource
  displayOrder : Nat
  env : List (Str × Str)
deriving DecidableEq

/-- `HookListEntry`, of a command. -/
structure HookListEntry where
  key : Str
  eventName : HookEventName
  matcher : Option Str
  command : Str
  timeoutSec : Nat
  statusMessage : Option Str
  additionalContextLimit : Option Nat
  sourcePath : Str
  source : HookSource
  pluginId : Option Str
  displayOrder : Nat
  enabled : Bool
  isManaged : Bool
  currentHash : Str
  trustStatus : HookTrustStatus
deriving DecidableEq

structure HookHandlerSource where
  path : Str
  keySource : Str
  source : HookSource
  isManaged : Bool
  bypassHookTrust : Bool
  env : List (Str × Str)
  pluginId : Option Str
deriving DecidableEq

structure Discovery where
  handlers : List ConfiguredHandler := []
  hookEntries : List HookListEntry := []
  warnings : List Str := []
  displayOrder : Nat := 0
deriving DecidableEq

/-- What discovery has from elsewhere: the platform, `Regex::new` with the text of its error, the `Debug` text of a string,
and the hash. -/
structure DiscoveryOps where
  windows : Bool
  regexError : Str → Option Str
  debugText : Str → Str
  hashing : Hashing

inductive Panic where
  | unreachable (message : Str)
deriving DecidableEq

def Discovery.warn (st : Discovery) (warning : Str) : Discovery := { st with warnings := st.warnings ++ [warning] }

/-! ## One hook -/

def isExactMatcher (matcher : Str) : Bool := matcher.all fun c => c.isAlphanum || c == '_' || c == '|'

variable (ops : DiscoveryOps)

/-- `validate_matcher_pattern`, with its error. -/
def validateMatcherPattern (matcher : Str) : Option Str :=
  if matcher.isEmpty || matcher == ['*'] || isExactMatcher matcher then none else ops.regexError matcher

def sessionEndDefaultTimeoutSec : Nat := 1

def sessionEndMaxTimeoutSec : Nat := 3

def defaultHookOutputTokenLimit : Nat := 2500

def normalizeCommandHook (event : HookEventName) (timeoutSec : Option Nat) : Nat :=
  if event ≠ .sessionEnd then max (timeoutSec.getD 600) 1
  else min (max (timeoutSec.getD sessionEndDefaultTimeoutSec) 1) sessionEndMaxTimeoutSec

/-- The warning of `normalize_command_hook`. -/
def clampWarning (path : Str) (event : HookEventName) (timeoutSec : Option Nat) : List Str :=
  if event = .sessionEnd ∧ timeoutSec.any (sessionEndMaxTimeoutSec < ·) then
    ["clamping SessionEnd hook timeout to 3s in ".toList ++ path]
  else []

def hookKey (keySource : Str) (event : HookEventName) (groupIndex handlerIndex : Nat) : Str :=
  keySource ++ ':' :: event.keyLabel ++ ':' :: Nat.toDigits 10 groupIndex ++ ':' :: Nat.toDigits 10 handlerIndex

def hookEnabled (isManaged : Bool) (state : Option HookStateToml) : Bool :=
  isManaged || state.bind HookStateToml.enabled != some false

def hookTrustedHash (isManaged : Bool) (state : Option HookStateToml) : Option Str :=
  if isManaged then none else state.bind HookStateToml.trustedHash

def hookTrustStatus (isManaged : Bool) (currentHash : Str) (trustedHash : Option Str) : HookTrustStatus :=
  if isManaged then .managed
  else
    match trustedHash with
    | some trustedHash => if trustedHash = currentHash then .trusted else .modified
    | none => .untrusted

def references (env : List (Str × Str)) : List (Str × Str) :=
  env.map fun e => ('$' :: '{' :: e.1 ++ ['}'], e.2)

/-- The command with the variables of the environment, one after the other. -/
def substituteEnv (env : List (Str × Str)) (command : Str) : Str := Template.replaceEach (references env) command

/-- The command of a hook on this platform. -/
def platformCommand (windows : Bool) (command : Str) (commandWindows : Option Str) : Str :=
  if windows then commandWindows.getD command else command

/-- The limit of a hook that can add to the context. -/
def effectiveLimit (event : HookEventName) (limit : Option Nat) : Option Nat :=
  if event.emitsAdditionalContext then limit else none

/-- The warning of a limit without effect. -/
def limitWarning (path : Str) (event : HookEventName) (limit : Option Nat) : List Str :=
  if event.emitsAdditionalContext = false ∧ limit.isSome then
    ["ignoring additionalContextLimit for ".toList ++ event.debugName ++ " hook in ".toList ++ path ++
      ": this event cannot emit additionalContext".toList]
  else []

def hookEntry (source : HookHandlerSource) (hookStates : List (Str × HookStateToml)) (event : HookEventName)
    (matcher : Option Str) (key command : Str) (timeoutSec : Nat) (statusMessage : Option Str) (limit : Option Nat)
    (currentHash : Str) (displayOrder : Nat) : HookListEntry :=
  let state := SortedAssoc.get key hookStates
  { key, eventName := event, matcher, command := substituteEnv source.env command, timeoutSec, statusMessage
    additionalContextLimit := limit, sourcePath := source.path, source := source.source, pluginId := source.pluginId
    displayOrder, enabled := hookEnabled source.isManaged state, isManaged := source.isManaged, currentHash
    trustStatus := hookTrustStatus source.isManaged currentHash (hookTrustedHash source.isManaged state) }

/-- The hook runs. -/
def isRunnable (source : HookHandlerSource) (entry : HookListEntry) : Bool :=
  entry.enabled && (source.bypassHookTrust || entry.trustStatus == .managed || entry.trustStatus == .trusted)

/-- The handler of an entry. -/
def configuredHandler (source : HookHandlerSource) (entry : HookListEntry) : ConfiguredHandler where
  eventName := entry.eventName
  matcher := entry.matcher
  command := entry.command
  timeoutSec := entry.timeoutSec
  statusMessage := entry.statusMessage
  additionalContextLimit := entry.additionalContextLimit.getD defaultHookOutputTokenLimit
  sourcePath := entry.sourcePath
  source := entry.source
  displayOrder := entry.displayOrder
  env := source.env

/-- Lists an entry, and its handler if it runs. -/
def Discovery.list (st : Discovery) (source : HookHandlerSource) (entry : HookListEntry) : Discovery :=
  { st with
    hookEntries := st.hookEntries ++ [entry]
    handlers := if isRunnable source entry then st.handlers ++ [configuredHandler source entry] else st.handlers
    displayOrder := st.displayOrder + 1 }

def appendHandler (hookStates : List (Str × HookStateToml)) (source : HookHandlerSource)
    (event : HookEventName) (matcher : Option Str) (groupIndex : Nat) (st : Discovery)
    (indexed : HookHandlerConfig × Nat) : Except Panic Discovery :=
  match indexed.1 with
  | .prompt => .ok (st.warn ("skipping prompt hook in ".toList ++ source.path ++ ": prompt hooks are not supported yet".toList))
  | .agent => .ok (st.warn ("skipping agent hook in ".toList ++ source.path ++ ": agent hooks are not supported yet".toList))
  | .command command commandWindows timeoutSec isAsync statusMessage limit =>
    let command := platformCommand ops.windows command commandWindows
    if isAsync && event != .sessionEnd then
      .ok (st.warn ("skipping async hook in ".toList ++ source.path ++ ": async hooks are not supported yet".toList))
    else if (Str.trim command).isEmpty then
      .ok (st.warn ("skipping empty hook command in ".toList ++ source.path))
    else
      let asyncWarning := if isAsync then ["running async SessionEnd hook synchronously in ".toList ++ source.path] else []
      let warnings := clampWarning source.path event timeoutSec ++ asyncWarning ++ limitWarning source.path event limit
      let timeoutSec := normalizeCommandHook event timeoutSec
      let limit := effectiveLimit event limit
      let normalized : HookHandlerConfig := .command command none (some timeoutSec) isAsync statusMessage
        (limit.filter (· != defaultHookOutputTokenLimit))
      match commandHookHash ops.hashing event matcher normalized with
      | none => .error (.unreachable "normalized hook identity should serialize to TOML".toList)
      | some currentHash =>
        let key := hookKey source.keySource event groupIndex indexed.2
        let entry := hookEntry source hookStates event matcher key command timeoutSec statusMessage limit currentHash
          st.displayOrder
        .ok ({ st with warnings := st.warnings ++ warnings }.list source entry)

def appendGroup (hookStates : List (Str × HookStateToml)) (source : HookHandlerSource)
    (event : HookEventName) (st : Discovery) (indexed : MatcherGroup × Nat) : Except Panic Discovery :=
  let matcher := event.matcherPattern indexed.1.matcher
  match matcher.bind fun pattern => (validateMatcherPattern ops pattern).map fun err => (pattern, err) with
  | some invalid =>
    .ok (st.warn ("invalid matcher ".toList ++ ops.debugText invalid.1 ++ " in ".toList ++ source.path ++ ": ".toList ++
      invalid.2))
  | none => indexed.1.hooks.zipIdx.foldlM (appendHandler ops hookStates source event matcher indexed.2) st

def appendMatcherGroups (hookStates : List (Str × HookStateToml)) (source : HookHandlerSource)
    (groups : List MatcherGroup) (st : Discovery) (event : HookEventName) : Except Panic Discovery :=
  groups.zipIdx.foldlM (appendGroup ops hookStates source event) st

structure HookDiscoveryPolicy where
  allowManagedHooksOnly : Bool
  bypassHookTrust : Bool
deriving DecidableEq

def HookDiscoveryPolicy.allows (policy : HookDiscoveryPolicy) (isManaged : Bool) : Bool :=
  !policy.allowManagedHooksOnly || isManaged

def appendHookEvents (hookStates : List (Str × HookStateToml)) (policy : HookDiscoveryPolicy)
    (source : HookHandlerSource) (events : HookEventsToml) (st : Discovery) : Except Panic Discovery :=
  if policy.allows source.isManaged then
    HookEventsToml.order.foldlM (fun st event => appendMatcherGroups ops hookStates source (events event) st event) st
  else .ok st

/-! ## Configuration layers -/

inductive ConfigLayerSource where
  | mdm
  | system
  | enterpriseManaged
  | user
  | project
  | sessionFlags
  | legacyManagedConfigTomlFromFile
  | legacyManagedConfigTomlFromMdm
deriving DecidableEq

def ConfigLayerSource.hookMetadata : ConfigLayerSource → HookSource × Bool
  | system => (.system, true)
  | user => (.user, false)
  | project => (.project, false)
  | mdm => (.mdm, true)
  | enterpriseManaged => (.cloudManagedConfig, true)
  | sessionFlags => (.sessionFlags, false)
  | legacyManagedConfigTomlFromFile => (.legacyManagedConfigFile, true)
  | legacyManagedConfigTomlFromMdm => (.legacyManagedConfigMdm, true)

/-- `ConfigLayerEntry`: the path of `config_toml_source_path`, the hooks of its configuration or the error of reading them,
and its table of hook states with those that can be read. -/
structure ConfigLayerEntry where
  name : ConfigLayerSource
  disabled : Bool
  tomlPath : Str
  hooksConfigFolder : Option Str
  tomlHooks : Option (Except Str HookEventsToml)
  state : List (Str × Option HookStateToml)

/-- The hooks that the requirements bring, with `managed_hooks_source_path` and `hook_source_for_requirement_source`. -/
structure ManagedHooks where
  path : Str
  source : HookSource
  hooks : HookEventsToml

/-- `ConfigLayerStack`, with its requirements on hooks. -/
structure ConfigLayerStack where
  layers : List ConfigLayerEntry
  managedHooks : Option ManagedHooks
  allowManagedHooksOnly : Bool

/-- Sets the fields that a later layer has. -/
def HookStateToml.override (state later : HookStateToml) : HookStateToml where
  enabled := later.enabled.or state.enabled
  trustedHash := later.trustedHash.or state.trustedHash

/-- The loop of `hook_states_from_stack` over the table of a layer. -/
def layerHookStates (states : List (Str × HookStateToml)) (entry : Str × Option HookStateToml) :
    List (Str × HookStateToml) :=
  match entry.2 with
  | none => states
  | some state =>
    let key := Str.trim entry.1
    if key.isEmpty then states
    else SortedAssoc.insert key (((SortedAssoc.get key states).getD {}).override state) states

def hookStatesFromStack : Option ConfigLayerStack → List (Str × HookStateToml)
  | none => []
  | some stack =>
    (stack.layers.filter fun layer => layer.name == .user || layer.name == .sessionFlags).foldl
      (fun states layer => layer.state.foldl layerHookStates states) []

/-- What is found at the `hooks.json` of a folder. -/
inductive HooksJson where
  | missing
  | readError (err : Str)
  | parseError (err : Str)
  | parsed (events : HookEventsToml)

def loadHooksJson (readHooksJson : Str → HooksJson) (folder : Str) : Option (Str × HookEventsToml) × List Str :=
  let path := folder ++ "/hooks.json".toList
  match readHooksJson path with
  | .missing => (none, [])
  | .readError err => (none, ["failed to read hooks config ".toList ++ path ++ ": ".toList ++ err])
  | .parseError err => (none, ["failed to parse hooks config ".toList ++ path ++ ": ".toList ++ err])
  | .parsed events => (if events.isEmpty then none else some (path, events), [])

def loadTomlHooksFromLayer (layer : ConfigLayerEntry) : Option (Str × HookEventsToml) × List Str :=
  match layer.tomlHooks with
  | none => (none, [])
  | some (.error err) => (none, ["failed to parse TOML hooks in ".toList ++ layer.tomlPath ++ ": ".toList ++ err])
  | some (.ok events) => (if events.isEmpty then none else some (layer.tomlPath, events), [])

/-- The warning of a layer with hooks in both files. -/
def bothWarning (jsonHooks tomlHooks : Option (Str × HookEventsToml)) : List Str :=
  match jsonHooks, tomlHooks with
  | some json, some toml =>
    ["loading hooks from both ".toList ++ json.1 ++ " and ".toList ++ toml.1 ++
      "; prefer a single representation for this layer".toList]
  | _, _ => []

def appendLayer (readHooksJson : Str → HooksJson) (hookStates : List (Str × HookStateToml))
    (policy : HookDiscoveryPolicy) (st : Discovery × List Str) (layer : ConfigLayerEntry) :
    Except Panic (Discovery × List Str) := do
  let metadata := layer.name.hookMetadata
  if policy.allows metadata.2 then
    let fresh := layer.hooksConfigFolder.filter fun folder => !st.2.contains folder
    let json := (fresh.map (loadHooksJson readHooksJson)).getD (none, [])
    let toml := loadTomlHooksFromLayer layer
    let warned := { st.1 with warnings := st.1.warnings ++ json.2 ++ toml.2 ++ bothWarning json.1 toml.1 }
    let discovered ← (json.1.toList ++ toml.1.toList).foldlM
      (fun discovery hooks =>
        appendHookEvents ops hookStates policy
          { path := hooks.1, keySource := hooks.1, source := metadata.1, isManaged := metadata.2
            bypassHookTrust := policy.bypassHookTrust, env := [], pluginId := none }
          hooks.2 discovery) warned
    return (discovered, st.2 ++ fresh.toList)
  else return st

/-! ## Plugins -/

/-- The text of an absolute path: it has a separator or the colon of a drive before any brace. -/
def IsAbsoluteText (text : Str) : Prop :=
  ∃ before separator rest, text = before ++ separator :: rest ∧ '}' ∉ before ∧ separator ∈ ['/', '\\', ':']

/-- `PluginHookSource`. The directories are given by their texts. -/
structure PluginHookSource where
  pluginId : Str
  pluginRoot : Str
  pluginDataRoot : Str
  sourcePath : Str
  sourceRelativePath : Str
  hooks : HookEventsToml
  root_absolute : IsAbsoluteText pluginRoot
  data_absolute : IsAbsoluteText pluginDataRoot

/-- The environment of a plugin's hooks. -/
def pluginEnv (root data : Str) : List (Str × Str) :=
  [("PLUGIN_ROOT".toList, root), ("CLAUDE_PLUGIN_ROOT".toList, root), ("PLUGIN_DATA".toList, data),
    ("CLAUDE_PLUGIN_DATA".toList, data)]

/-- The order in which the entries of a hash map are iterated, for each of the maps that are made. -/
structure HashOrder where
  iterate : Nat → List (Str × Str) → List (Str × Str)
  perm : ∀ n entries, (iterate n entries).Perm entries

/-- The body of the loop of `append_plugin_hook_sources`. -/
def appendPlugin (order : HashOrder) (hookStates : List (Str × HookStateToml))
    (policy : HookDiscoveryPolicy) (st : Discovery) (indexed : PluginHookSource × Nat) : Except Panic Discovery :=
  let plugin := indexed.1
  appendHookEvents ops hookStates policy
    { path := plugin.sourcePath, keySource := plugin.pluginId ++ ':' :: plugin.sourceRelativePath, source := .plugin
      isManaged := false, bypassHookTrust := policy.bypassHookTrust
      env := order.iterate indexed.2 (pluginEnv plugin.pluginRoot plugin.pluginDataRoot)
      pluginId := some plugin.pluginId }
    plugin.hooks st

/-! ## Discovery -/

/-- What a discovery is made from. -/
structure DiscoveryInput where
  stack : Option ConfigLayerStack
  readHooksJson : Str → HooksJson
  plugins : List PluginHookSource
  loadWarnings : List Str
  bypassHookTrust : Bool
  order : HashOrder

namespace DiscoveryInput

variable (input : DiscoveryInput)

def hookStates : List (Str × HookStateToml) := hookStatesFromStack input.stack

def policy : HookDiscoveryPolicy where
  allowManagedHooksOnly := input.stack.any ConfigLayerStack.allowManagedHooksOnly
  bypassHookTrust := input.bypassHookTrust

def appendManaged (managed : Option ManagedHooks) (st : Discovery) : Except Panic Discovery :=
  match managed with
  | none => .ok st
  | some managed =>
    appendHookEvents ops input.hookStates input.policy
      { path := managed.path, keySource := managed.path, source := managed.source, isManaged := true
        bypassHookTrust := false, env := [], pluginId := none }
      managed.hooks st

/-- The part of `discover_handlers` over the stack. -/
def appendStack (st : Discovery) : Except Panic Discovery :=
  match input.stack with
  | none => .ok st
  | some stack => do
    let managed ← input.appendManaged ops stack.managedHooks st
    let enabled := stack.layers.filter fun layer => !layer.disabled
    let layered ← enabled.foldlM (appendLayer ops input.readHooksJson input.hookStates input.policy) (managed, [])
    return layered.1

def discoverHandlers : Except Panic Discovery := do
  let stacked ← input.appendStack ops { warnings := input.loadWarnings }
  input.plugins.zipIdx.foldlM (appendPlugin ops input.order input.hookStates input.policy) stacked

end DiscoveryInput

/-! ## What trust is for -/

/-- An entry and a handler of one hook. -/
structure Runs (st : Discovery) (entry : HookListEntry) (handler : ConfiguredHandler) : Prop where
  entry_mem : entry ∈ st.hookEntries
  handler_mem : handler ∈ st.handlers
  displayOrder : entry.displayOrder = handler.displayOrder

/-- Handlers of two discoveries with the same stored states and without the bypass, for hooks with one key that are not
managed. -/
def RunsInBoth (handler handler' : ConfiguredHandler) : Prop :=
  ∃ (input input' : DiscoveryInput) (st st' : Discovery) (entry entry' : HookListEntry),
    input.bypassHookTrust = false ∧ input'.bypassHookTrust = false ∧ input.hookStates = input'.hookStates ∧
    input.discoverHandlers ops = .ok st ∧ input'.discoverHandlers ops = .ok st' ∧ Runs st entry handler ∧
    Runs st' entry' handler' ∧ entry.key = entry'.key ∧ entry.isManaged = false ∧ entry'.isManaged = false

def HasDirs (root data : Str) (handler : ConfiguredHandler) : Prop := handler.env.Perm (pluginEnv root data)

/-- The texts that stand for the directories of a plugin. -/
def pluginReferences : List Str := (references (pluginEnv [] [])).map Prod.fst

def PlainDir (dir : Str) : Prop := Template.Inert pluginReferences dir

end Dcode.Hooks
