import Dcode.Hooks.Discovery
import Dcode.Hooks.Proofs.HookConfigProofs
import Dcode.Lib.JsonCode
import Dcode.Lib.Run

/-!
# What trust in a hook covers

A hook that is not managed runs only with the fingerprint that is stored under its key. So two discoveries with the same
stored states agree on its event, matcher, timeout and command. The command that is run has the directories of the plugin in
it, and these can depend on the order of a hash map: exactly when a directory has a reference in its own text, or ends with
the beginning of one.
-/

namespace Dcode.Hooks

open List Except Run Discovery

/-! ## Handlers that are listed are trusted -/

structure Trusted (ops : DiscoveryOps) (hookStates : List (Str × HookStateToml)) (entry : HookListEntry)
    (handler : ConfiguredHandler) : Prop where
  eventName : handler.eventName = entry.eventName
  matcher : handler.matcher = entry.matcher
  timeoutSec : handler.timeoutSec = entry.timeoutSec
  command : ∃ command isAsync statusMessage limit, commandHookHash ops.hashing entry.eventName entry.matcher
      (.command command none (some entry.timeoutSec) isAsync statusMessage limit) = some entry.currentHash ∧
    handler.command = substituteEnv handler.env command
  stored : entry.isManaged = false →
    (SortedAssoc.get entry.key hookStates).bind HookStateToml.trustedHash = some entry.currentHash

structure Sound (ops : DiscoveryOps) (hookStates : List (Str × HookStateToml)) (st : Discovery) : Prop where
  entry_lt : ∀ entry ∈ st.hookEntries, entry.displayOrder < st.displayOrder
  handler_lt : ∀ handler ∈ st.handlers, handler.displayOrder < st.displayOrder
  trusted : ∀ entry ∈ st.hookEntries, ∀ handler ∈ st.handlers, entry.displayOrder = handler.displayOrder →
    Trusted ops hookStates entry handler

section Sound

variable {ops : DiscoveryOps} {hookStates : List (Str × HookStateToml)} {st st' : Discovery} {source : HookHandlerSource}

theorem sound_start (warnings : List Str) : Sound ops hookStates { warnings } where
  entry_lt := fun _ h => by cases h
  handler_lt := fun _ h => by cases h
  trusted := fun _ h => by cases h

theorem Sound.warnings (h : Sound ops hookStates st) (warnings : List Str) : Sound ops hookStates { st with warnings } :=
  ⟨h.entry_lt, h.handler_lt, h.trusted⟩

theorem Sound.list (h : Sound ops hookStates st) {entry : HookListEntry} (horder : entry.displayOrder = st.displayOrder)
    (htrusted : isRunnable source entry → Trusted ops hookStates entry (configuredHandler source entry)) :
    Sound ops hookStates (st.list source entry) := by
  have hnew : ∀ handler ∈ (st.list source entry).handlers,
      handler ∈ st.handlers ∨ isRunnable source entry ∧ handler = configuredHandler source entry := by
    intro handler hmem
    change handler ∈ (if isRunnable source entry then st.handlers ++ [configuredHandler source entry] else st.handlers) at hmem
    split at hmem
    next hrun =>
      rcases mem_append.mp hmem with hmem | hmem
      · exact .inl hmem
      · exact .inr ⟨hrun, mem_singleton.mp hmem⟩
    · exact .inl hmem
  refine ⟨?_, ?_, ?_⟩
  · intro e he
    rcases mem_append.mp he with he | he
    · exact Nat.lt_succ_of_lt (h.entry_lt e he)
    · rw [mem_singleton.mp he, horder]
      exact Nat.lt_succ_self _
  · intro handler hhandler
    rcases hnew handler hhandler with hold | ⟨-, rfl⟩
    · exact Nat.lt_succ_of_lt (h.handler_lt handler hold)
    · exact Nat.lt_succ_of_le (Nat.le_of_eq horder)
  · intro e he handler hhandler hsame
    -- an old and a new one are at different positions
    rcases mem_append.mp he with he | he
    · rcases hnew handler hhandler with hold | ⟨-, rfl⟩
      · exact h.trusted e he handler hold hsame
      · have hlt := h.entry_lt e he
        have hposition : (configuredHandler source entry).displayOrder = st.displayOrder := horder
        omega
    · obtain rfl := mem_singleton.mp he
      rcases hnew handler hhandler with hold | ⟨hrun, rfl⟩
      · have hlt := h.handler_lt handler hold
        omega
      · exact htrusted hrun

theorem stored_of_isRunnable (hbypass : source.bypassHookTrust = false) {event : HookEventName} {matcher : Option Str}
    {key command currentHash : Str} {timeoutSec displayOrder : Nat} {statusMessage : Option Str} {limit : Option Nat}
    (hrun : isRunnable source (hookEntry source hookStates event matcher key command timeoutSec statusMessage limit currentHash
      displayOrder)) (hmanaged : source.isManaged = false) :
    (SortedAssoc.get key hookStates).bind HookStateToml.trustedHash = some currentHash := by
  have hstatus : hookTrustStatus source.isManaged currentHash
      (hookTrustedHash source.isManaged (SortedAssoc.get key hookStates)) = .trusted := by
    rw [isRunnable, hbypass, Bool.false_or, Bool.and_eq_true, Bool.or_eq_true, beq_iff_eq, beq_iff_eq] at hrun
    rcases hrun.2 with h | h
    · change hookTrustStatus source.isManaged currentHash _ = .managed at h
      rw [hmanaged, hookTrustStatus.eq_def, if_neg Bool.false_ne_true] at h
      split at h
      · split at h <;> cases h
      · cases h
    · exact h
  rw [hmanaged, hookTrustStatus.eq_def, hookTrustedHash, if_neg Bool.false_ne_true, if_neg Bool.false_ne_true] at hstatus
  split at hstatus
  next trustedHash htrusted =>
    split at hstatus
    next heq =>
      rw [htrusted, heq]
    · cases hstatus
  · cases hstatus

section

variable (h : Sound ops hookStates st)

include h

theorem Sound.appendHandler (hbypass : source.bypassHookTrust = false) {event : HookEventName} {matcher : Option Str}
    {groupIndex : Nat} {indexed : HookHandlerConfig × Nat}
    (hok : Hooks.appendHandler ops hookStates source event matcher groupIndex st indexed = .ok st') :
    Sound ops hookStates st' := by
  rw [Hooks.appendHandler] at hok
  split at hok
  · obtain rfl := ok.inj hok
    exact h.warnings _
  · obtain rfl := ok.inj hok
    exact h.warnings _
  · dsimp only at hok
    split at hok
    · obtain rfl := ok.inj hok
      exact h.warnings _
    · split at hok
      · obtain rfl := ok.inj hok
        exact h.warnings _
      · split at hok
        · cases hok
        next currentHash hhash =>
          obtain rfl := ok.inj hok
          refine (h.warnings _).list rfl fun hrun => ⟨rfl, rfl, rfl, ⟨_, _, _, _, hhash, rfl⟩, fun hmanaged => ?_⟩
          exact stored_of_isRunnable hbypass hrun hmanaged

theorem Sound.appendHookEvents (hbypass : source.bypassHookTrust = false) {policy : HookDiscoveryPolicy}
    {events : HookEventsToml} (hok : Hooks.appendHookEvents ops hookStates policy source events st = .ok st') :
    Sound ops hookStates st' := by
  rw [Hooks.appendHookEvents] at hok
  split at hok
  · refine foldlM_invariant (P := Sound ops hookStates) ?_ h hok
    intro s event t _ hs ht
    refine foldlM_invariant (P := Sound ops hookStates) ?_ hs ht
    intro s indexed t _ hs ht
    rw [appendGroup] at ht
    split at ht
    · obtain rfl := ok.inj ht
      exact hs.warnings _
    · refine foldlM_invariant (P := Sound ops hookStates) ?_ hs ht
      intro s handler t _ hs ht
      exact hs.appendHandler hbypass ht
  · obtain rfl := ok.inj hok
    exact h

theorem Sound.appendLayer {readHooksJson : Str → HooksJson} {policy : HookDiscoveryPolicy} {visited visited' : List Str}
    {layer : ConfigLayerEntry} (hbypass : policy.bypassHookTrust = false)
    (hok : Hooks.appendLayer ops readHooksJson hookStates policy (st, visited) layer = .ok (st', visited')) :
    Sound ops hookStates st' := by
  rw [Hooks.appendLayer] at hok
  split at hok
  · obtain ⟨discovered, hdiscovered, heq⟩ := bind_eq_ok.mp hok
    obtain rfl := (Prod.mk.inj (ok.inj heq)).1
    refine foldlM_invariant (P := Sound ops hookStates) ?_ (h.warnings _) hdiscovered
    intro s hooks t _ hs ht
    exact hs.appendHookEvents hbypass ht
  · obtain rfl := (Prod.mk.inj (ok.inj hok)).1
    exact h

end

/-- What a discovery without the bypass lists is trusted. -/
theorem sound_discoverHandlers {input : DiscoveryInput} (hbypass : input.bypassHookTrust = false)
    (hok : input.discoverHandlers ops = .ok st) : Sound ops input.hookStates st := by
  obtain ⟨stacked, hstacked, hplugins⟩ := bind_eq_ok.mp hok
  have hsound : Sound ops input.hookStates stacked := by
    rw [DiscoveryInput.appendStack] at hstacked
    split at hstacked
    · obtain rfl := ok.inj hstacked
      exact sound_start _
    · obtain ⟨managed, hmanaged, hrest⟩ := bind_eq_ok.mp hstacked
      obtain ⟨layered, hlayered, heq⟩ := bind_eq_ok.mp hrest
      obtain rfl := ok.inj heq
      have hstart : Sound ops input.hookStates managed := by
        rw [DiscoveryInput.appendManaged.eq_def] at hmanaged
        split at hmanaged
        · obtain rfl := ok.inj hmanaged
          exact sound_start _
        · exact (sound_start _).appendHookEvents rfl hmanaged
      refine foldlM_invariant (P := fun s => Sound ops input.hookStates s.1) ?_ hstart hlayered
      intro s layer t _ hs ht
      exact Sound.appendLayer hs hbypass ht
  refine foldlM_invariant (P := Sound ops input.hookStates) ?_ hsound hplugins
  intro s plugin t _ hs ht
  exact hs.appendHookEvents hbypass ht

end Sound

/-! ## The same hook -/

/-- Two handlers of one key run the same command at the same event, before the variables are replaced. -/
theorem RunsInBoth.same {ops : DiscoveryOps} {handler handler' : ConfiguredHandler} (h : RunsInBoth ops handler handler') :
    handler.eventName = handler'.eventName ∧ handler.matcher = handler'.matcher ∧
      handler.timeoutSec = handler'.timeoutSec ∧
      ∃ command, handler.command = substituteEnv handler.env command ∧
        handler'.command = substituteEnv handler'.env command := by
  obtain ⟨input, input', st, st', entry, entry', hbypass, hbypass', hstates, hok, hok', hruns, hruns', hkey, hmanaged,
    hmanaged'⟩ := h
  have htrusted := (sound_discoverHandlers hbypass hok).trusted entry hruns.entry_mem handler hruns.handler_mem hruns.displayOrder
  have htrusted' :=
    (sound_discoverHandlers hbypass' hok').trusted entry' hruns'.entry_mem handler' hruns'.handler_mem hruns'.displayOrder
  -- both have the fingerprint that is stored under the key
  have hhash : entry.currentHash = entry'.currentHash := by
    have hstored := htrusted.stored hmanaged
    rw [hstates, hkey, htrusted'.stored hmanaged'] at hstored
    exact (Option.some.inj hstored).symm
  obtain ⟨command, isAsync, statusMessage, limit, hcommand, hrun⟩ := htrusted.command
  obtain ⟨command', isAsync', statusMessage', limit', hcommand', hrun'⟩ := htrusted'.command
  rw [hhash] at hcommand
  obtain ⟨hevent, hmatcher, rfl, htimeout⟩ := eq_of_commandHookHash_eq hcommand hcommand'
  refine ⟨?_, ?_, ?_, command, hrun, hrun'⟩
  · rw [htrusted.eventName, htrusted'.eventName, hevent]
  · rw [htrusted.matcher, htrusted'.matcher, hmatcher]
  · rw [htrusted.timeoutSec, htrusted'.timeoutSec, htimeout]

/-! ## The directories of a plugin -/

section Dirs

variable {root data : Str}

theorem map_fst_references (env : List (Str × Str)) :
    (references env).map Prod.fst = env.map fun e => '$' :: '{' :: e.1 ++ ['}'] := by
  rw [references, map_map]
  rfl

theorem isRef_pluginReferences : ∀ ref ∈ pluginReferences, Template.IsRef '$' '}' ref := by
  have hall : ∀ name ∈ (pluginEnv [] []).map Prod.fst, '$' ∉ '{' :: name ∧ '}' ∉ '{' :: name := by decide +kernel
  intro ref href
  rw [pluginReferences, map_fst_references, mem_map] at href
  obtain ⟨e, he, rfl⟩ := href
  obtain ⟨hopening, hclosing⟩ := hall e.1 (mem_map.mpr ⟨e, he, rfl⟩)
  exact ⟨⟨'{' :: e.1, rfl, hopening, hclosing⟩, by decide⟩

/-- An absolute path does not begin with the end of a reference. -/
theorem IsAbsoluteText.closed {dir : Str} (h : IsAbsoluteText dir) : Template.Closed pluginReferences dir := by
  obtain ⟨before, separator, rest, rfl, hbrace, hseparator⟩ := h
  have hnone : ∀ ref ∈ pluginReferences, ∀ c ∈ ['/', '\\', ':'], c ∉ ref := by
    simp [pluginReferences, references, pluginEnv]
  intro ref href ending hne hending later hstarts
  have hseparatorNotMem : separator ∉ ending := fun hmem => hnone ref href separator hseparator (hending.mem hmem)
  rw [append_assoc] at hstarts
  -- the ending has no separator, so it is before the first one, but it ends with the brace
  have hbefore : ending <+: before := by
    rcases prefix_or_prefix_of_prefix hstarts (prefix_append before _) with hle | hle
    · exact hle
    · obtain ⟨more, rfl⟩ := hle
      rw [prefix_append_right_inj] at hstarts
      cases more with
      | nil =>
        rw [append_nil]
      | cons c more =>
        obtain rfl := (cons_prefix_cons.mp hstarts).1
        exact absurd (mem_append_right _ mem_cons_self) hseparatorNotMem
  have hlast : '}' ∈ ending := by
    obtain ⟨name, hname, -, -⟩ := (isRef_pluginReferences ref href).shape
    obtain ⟨front, hfront⟩ := hending
    obtain ⟨init, last, rfl⟩ := (eq_nil_or_concat' ending).resolve_left hne
    rw [hname, ← append_assoc, ← cons_append] at hfront
    have heq := append_inj_right' hfront rfl
    rw [heq]
    exact mem_append_right _ mem_cons_self
  exact hbrace (hbefore.mem hlast)

theorem value_of_mem_pluginEnv {P : Str → Prop} (hroot : P root) (hdata : P data) {e : Str × Str}
    (h : e ∈ pluginEnv root data) : P e.2 := by
  simp only [pluginEnv, mem_cons, not_mem_nil, or_false] at h
  rcases h with rfl | rfl | rfl | rfl
  · exact hroot
  · exact hroot
  · exact hdata
  · exact hdata

theorem fits_pluginEnv (hroot : IsAbsoluteText root) (hdata : IsAbsoluteText data) (hplain : PlainDir root ∧ PlainDir data) :
    Template.Fits '$' '}' pluginReferences (references (pluginEnv root data)) := by
  have hvalue : ∀ P : Str → Prop, P root → P data → ∀ e ∈ references (pluginEnv root data), P e.2 := by
    intro P hroot hdata e he
    obtain ⟨entry, hentry, rfl⟩ := mem_map.mp he
    exact @value_of_mem_pluginEnv _ _ P hroot hdata entry hentry
  refine ⟨?_, isRef_pluginReferences, hvalue PlainDir hplain.1 hplain.2, hvalue _ hroot.closed hdata.closed⟩
  intro e he
  change e.1 ∈ (references (pluginEnv root data)).map Prod.fst
  exact mem_map.mpr ⟨e, he, rfl⟩

theorem nodup_references : ((references (pluginEnv root data)).map Prod.fst).Nodup := by
  have hnames : pluginReferences.Nodup := by decide +kernel
  exact hnames

/-- With plain directories the order of the variables does not matter. -/
theorem substituteEnv_perm (hroot : IsAbsoluteText root) (hdata : IsAbsoluteText data) (hplain : PlainDir root ∧ PlainDir data)
    {env env' : List (Str × Str)} (henv : env.Perm (pluginEnv root data)) (henv' : env'.Perm (pluginEnv root data))
    (command : Str) : substituteEnv env command = substituteEnv env' command := by
  have hfits := fits_pluginEnv hroot hdata hplain
  have hside : ∀ {env : List (Str × Str)}, env.Perm (pluginEnv root data) →
      substituteEnv env command = substituteEnv (pluginEnv root data) command := by
    intro env henv
    exact (hfits.replaceEach_perm nodup_references (henv.map _).symm command).symm
  rw [hside henv, hside henv']

/-- Both directories are the value of two variables, so one of them has another name than a given one. -/
theorem exists_other_mem (name : Str) {dir : Str} (hdir : dir = root ∨ dir = data) :
    ∃ x ∈ pluginEnv root data, x.2 = dir ∧ x.1 ≠ name := by
  have hpick : ∀ a b : Str, a ≠ b → (a, dir) ∈ pluginEnv root data → (b, dir) ∈ pluginEnv root data →
      ∃ x ∈ pluginEnv root data, x.2 = dir ∧ x.1 ≠ name := by
    intro a b hne ha hb
    by_cases heq : a = name
    · exact ⟨(b, dir), hb, rfl, fun h => hne (heq.trans h.symm)⟩
    · exact ⟨(a, dir), ha, rfl, heq⟩
  rcases hdir with rfl | rfl
  · refine hpick "PLUGIN_ROOT".toList "CLAUDE_PLUGIN_ROOT".toList (by decide) mem_cons_self ?_
    exact mem_cons_of_mem _ mem_cons_self
  · refine hpick "PLUGIN_DATA".toList "CLAUDE_PLUGIN_DATA".toList (by decide) ?_ ?_
    · exact mem_cons_of_mem _ (mem_cons_of_mem _ mem_cons_self)
    · exact mem_cons_of_mem _ (mem_cons_of_mem _ (mem_cons_of_mem _ mem_cons_self))

/-- Two variables can be the last ones, in either order. -/
theorem exists_last_two {x y : Str × Str} (hx : x ∈ pluginEnv root data) (hy : y ∈ pluginEnv root data) (hne : x.1 ≠ y.1) :
    ∃ rest, (rest ++ [x, y]).Perm (pluginEnv root data) ∧ ∀ z ∈ rest, z.1 ≠ x.1 := by
  have hxy : y ≠ x := fun h => hne (h ▸ rfl)
  have hperm : (pluginEnv root data).Perm (x :: y :: ((pluginEnv root data).erase x).erase y) :=
    (perm_cons_erase hx).trans ((perm_cons_erase ((mem_erase_of_ne hxy).mpr hy)).cons x)
  refine ⟨((pluginEnv root data).erase x).erase y, (perm_append_comm.trans hperm.symm), ?_⟩
  intro z hz
  have hnodup := @nodup_references root data
  rw [map_fst_references] at hnodup
  intro heq
  refine (nodup_cons.mp ((hperm.map _).nodup hnodup)).1 (mem_map.mpr ⟨z, mem_cons_of_mem _ hz, ?_⟩)
  simp only [heq]

theorem mem_pluginReferences {ref : Str} (h : ref ∈ pluginReferences) :
    ∃ y ∈ pluginEnv root data, ref = '$' :: '{' :: y.1 ++ ['}'] := by
  change ref ∈ (references (pluginEnv root data)).map Prod.fst at h
  rw [map_fst_references] at h
  obtain ⟨y, hy, rfl⟩ := mem_map.mp h
  exact ⟨y, hy, rfl⟩

/-- A directory that is not plain makes two orders of the variables differ on some command. -/
theorem exists_substituteEnv_ne (hroot : IsAbsoluteText root) (hdata : IsAbsoluteText data)
    (hplain : ¬ (PlainDir root ∧ PlainDir data)) :
    ∃ command env env', env.Perm (pluginEnv root data) ∧ env'.Perm (pluginEnv root data) ∧
      substituteEnv env ('$' :: command) ≠ substituteEnv env' ('$' :: command) := by
  have hdir : ∃ dir, (dir = root ∨ dir = data) ∧ ¬ PlainDir dir := by
    by_cases hplainRoot : PlainDir root
    · exact ⟨data, .inr rfl, fun hplainData => hplain ⟨hplainRoot, hplainData⟩⟩
    · exact ⟨root, .inl rfl, hplainRoot⟩
  obtain ⟨dir, hdir, hnot⟩ := hdir
  obtain ⟨ref, href, text, htext, hwithin⟩ := Template.exists_within_of_not_inert isRef_pluginReferences hnot
  obtain ⟨y, hy, rfl⟩ := @mem_pluginReferences root data _ href
  obtain ⟨x, hx, rfl, hne⟩ := @exists_other_mem root data y.1 dir hdir
  obtain ⟨rest, hperm, hrest⟩ := exists_last_two hx hy hne
  have hsame : ∀ a b : Str, '$' :: '{' :: a ++ ['}'] = '$' :: '{' :: b ++ ['}'] → a = b := by
    intro a b heq
    exact append_cancel_right (cons.inj (cons.inj heq).2).2
  have hisRef : ∀ z ∈ pluginEnv root data, Template.IsRef '$' '}' ('$' :: '{' :: z.1 ++ ['}']) := by
    intro z hz
    refine isRef_pluginReferences _ ?_
    change _ ∈ (references (pluginEnv root data)).map Prod.fst
    rw [map_fst_references]
    exact mem_map.mpr ⟨z, hz, rfl⟩
  have hclosed : Template.Closed pluginReferences y.2 := value_of_mem_pluginEnv hroot.closed hdata.closed hy
  have hswap := @Template.replaceEach_swap_ne _ '$' '}' text _ (references rest) ('$' :: '{' :: x.1 ++ ['}'], x.2)
    ('$' :: '{' :: y.1 ++ ['}'], y.2) ?_ (hisRef x hx) (hisRef y hy) (fun h => hne (hsame _ _ h).symm)
    (hclosed _ href _ (cons_ne_nil _ _) suffix_rfl) htext hwithin
  · refine ⟨'{' :: x.1 ++ ['}'] ++ text, rest ++ [x, y], rest ++ [y, x], hperm, ?_, ?_⟩
    · exact (Perm.append_left rest (Perm.swap x y [])).trans hperm
    · rw [substituteEnv, substituteEnv, references, references, map_append, map_append]
      exact hswap
  · intro e he
    obtain ⟨z, hz, rfl⟩ := mem_map.mp he
    have hzenv := hperm.mem_iff.mp (mem_append_left _ hz)
    exact ⟨hisRef z hzenv, fun h => hrest z hz (hsame _ _ h)⟩

end Dirs

/-! ## A plugin with one hook -/

section OneHook

variable (ops : DiscoveryOps) {root data : Str} (hroot : IsAbsoluteText root) (hdata : IsAbsoluteText data) (command : Str)

def oneHook : HookEventsToml := fun event =>
  if event = .preToolUse then [{ matcher := none, hooks := [.command command none none false none none] }] else []

def onePlugin : PluginHookSource where
  pluginId := "p@m".toList
  pluginRoot := root
  pluginDataRoot := data
  sourcePath := "/p/hooks.json".toList
  sourceRelativePath := "hooks.json".toList
  hooks := oneHook command
  root_absolute := hroot
  data_absolute := hdata

def oneKey : Str := "p@m:hooks.json:pre_tool_use:0:0".toList

def oneHash : Str := ((commandHookHash ops.hashing .preToolUse none (.command command none (some 600) false none none)).getD [])

def oneStates : List (Str × HookStateToml) := [(oneKey, { enabled := none, trustedHash := some (oneHash ops command) })]

def oneStack : ConfigLayerStack where
  layers := [{ name := .user, disabled := false, tomlPath := "/c/config.toml".toList, hooksConfigFolder := none
               tomlHooks := none, state := [(oneKey, some { enabled := none, trustedHash := some (oneHash ops command) })] }]
  managedHooks := none
  allowManagedHooksOnly := false

variable (env : List (Str × Str))

/-- The map of the plugin is iterated in a given order, and all others as they are filled. -/
def orderOf (henv : env.Perm (pluginEnv root data)) : HashOrder where
  iterate _ entries := if entries = pluginEnv root data then env else entries
  perm := by
    intro _ entries
    split
    next heq =>
      rw [heq]
      exact henv
    · exact List.Perm.refl _

def oneInput (henv : env.Perm (pluginEnv root data)) : DiscoveryInput where
  stack := some (oneStack ops command)
  readHooksJson _ := .missing
  plugins := [onePlugin hroot hdata command]
  loadWarnings := []
  bypassHookTrust := false
  order := orderOf env henv

def oneSource : HookHandlerSource where
  path := "/p/hooks.json".toList
  keySource := "p@m:hooks.json".toList
  source := .plugin
  isManaged := false
  bypassHookTrust := false
  env := env
  pluginId := some "p@m".toList

def oneEntry : HookListEntry :=
  hookEntry (oneSource env) (oneStates ops command) .preToolUse none oneKey command 600 none none (oneHash ops command) 0

theorem isRunnable_one : isRunnable (oneSource env) (oneEntry ops command env) := by
  have htrusted : (oneEntry ops command env).trustStatus = .trusted := by
    change hookTrustStatus false (oneHash ops command)
      (hookTrustedHash false (SortedAssoc.get oneKey (oneStates ops command))) = .trusted
    exact if_pos rfl
  rw [isRunnable, htrusted]
  rfl

theorem appendHandler_one (hcommand : (Str.trim command).isEmpty = false) :
    appendHandler ops (oneStates ops command) (oneSource env) .preToolUse none 0 {}
      (.command command none none false none none, 0) =
      .ok (list {} (oneSource env) (oneEntry ops command env)) := by
  have hplatform : platformCommand ops.windows command none = command := by
    rw [platformCommand]
    split <;> rfl
  rw [appendHandler]
  dsimp only
  rw [hplatform, hcommand]
  rfl

theorem appendHookEvents_one (hcommand : (Str.trim command).isEmpty = false) :
    appendHookEvents ops (oneStates ops command) { allowManagedHooksOnly := false, bypassHookTrust := false } (oneSource env)
      (oneHook command) {} = .ok (list {} (oneSource env) (oneEntry ops command env)) := by
  have hfirst : appendMatcherGroups ops (oneStates ops command) (oneSource env) (oneHook command .preToolUse) {} .preToolUse =
      .ok (list {} (oneSource env) (oneEntry ops command env)) := by
    have hgroup : appendGroup ops (oneStates ops command) (oneSource env) .preToolUse {}
        ({ matcher := none, hooks := [.command command none none false none none] }, 0) =
        .ok (list {} (oneSource env) (oneEntry ops command env)) := by
      refine foldlM_cons_eq_ok.mpr ⟨_, appendHandler_one ops command env hcommand, rfl⟩
    exact foldlM_cons_eq_ok.mpr ⟨_, hgroup, rfl⟩
  have hall := (foldlM_cons_eq_ok (f := fun st event =>
    appendMatcherGroups ops (oneStates ops command) (oneSource env) (oneHook command event) st event)).mpr
    ⟨_, hfirst, (rfl : HookEventsToml.order.tail.foldlM _ _ = _)⟩
  exact hall

/-- The hook runs with the variables replaced in the given order. -/
theorem exists_runs_one (henv : env.Perm (pluginEnv root data)) (hcommand : (Str.trim command).isEmpty = false) :
    ∃ st entry handler, (oneInput ops hroot hdata command env henv).discoverHandlers ops = .ok st ∧ Runs st entry handler ∧
      entry.key = oneKey ∧ entry.isManaged = false ∧ handler.env = env ∧
      handler.command = substituteEnv env command := by
  have hiterate : (orderOf env henv).iterate 0 (pluginEnv root data) = env := if_pos rfl
  have hplugin : appendPlugin ops (orderOf env henv) (oneStates ops command)
      { allowManagedHooksOnly := false, bypassHookTrust := false } {} (onePlugin hroot hdata command, 0) =
      .ok (list {} (oneSource env) (oneEntry ops command env)) := by
    change appendHookEvents _ _ _ (oneSource ((orderOf env henv).iterate 0 (pluginEnv root data))) _ _ = _
    rw [hiterate]
    exact appendHookEvents_one ops command env hcommand
  have hok : (oneInput ops hroot hdata command env henv).discoverHandlers ops =
      .ok (list {} (oneSource env) (oneEntry ops command env)) := by
    exact foldlM_cons_eq_ok.mpr ⟨_, hplugin, rfl⟩
  refine ⟨_, oneEntry ops command env, configuredHandler (oneSource env) (oneEntry ops command env), hok, ⟨?_, ?_, rfl⟩, rfl,
    rfl, rfl, rfl⟩
  · exact mem_append_right _ mem_cons_self
  · rw [list, isRunnable_one]
    exact mem_append_right _ mem_cons_self

include hroot hdata in
/-- The hook runs in two discoveries that iterate the map of the plugin in different orders. -/
theorem exists_runsInBoth {env env' : List (Str × Str)} (henv : env.Perm (pluginEnv root data))
    (henv' : env'.Perm (pluginEnv root data)) (hcommand : (Str.trim command).isEmpty = false) :
    ∃ handler handler', RunsInBoth ops handler handler' ∧ HasDirs root data handler ∧ HasDirs root data handler' ∧
      handler.command = substituteEnv env command ∧ handler'.command = substituteEnv env' command := by
  obtain ⟨st, entry, handler, hok, hruns, hkey, hmanaged, rfl, hrun⟩ := exists_runs_one ops hroot hdata command env henv hcommand
  obtain ⟨st', entry', handler', hok', hruns', hkey', hmanaged', rfl, hrun'⟩ :=
    exists_runs_one ops hroot hdata command env' henv' hcommand
  refine ⟨handler, handler', ?_, henv, henv', hrun, hrun'⟩
  exact ⟨oneInput ops hroot hdata command handler.env henv, oneInput ops hroot hdata command handler'.env henv', st, st', entry,
    entry', rfl, rfl, rfl, hok, hok', hruns, hruns', hkey.trans hkey'.symm, hmanaged, hmanaged'⟩

end OneHook

/-- A hook that is not managed and runs in two discoveries with the same stored states has the same event, matcher and
timeout in both, and the same command if it is not a plugin's. A plugin's hook has the same command in both for every
command exactly if the texts of the plugin's directories do not refer to the directories themselves. -/
theorem trust_covers_iff (ops : DiscoveryOps) : (∀ handler handler', RunsInBoth ops handler handler' →
      handler.eventName = handler'.eventName ∧ handler.matcher = handler'.matcher ∧
        handler.timeoutSec = handler'.timeoutSec ∧
        (handler.env = [] → handler'.env = [] → handler.command = handler'.command)) ∧
      ∀ root data, IsAbsoluteText root → IsAbsoluteText data →
        ((∀ handler handler', RunsInBoth ops handler handler' → HasDirs root data handler → HasDirs root data handler' →
          handler.command = handler'.command) ↔ PlainDir root ∧ PlainDir data) := by
  constructor
  · intro handler handler' h
    obtain ⟨hevent, hmatcher, htimeout, command, hrun, hrun'⟩ := h.same
    refine ⟨hevent, hmatcher, htimeout, fun henv henv' => ?_⟩
    rw [hrun, hrun', henv, henv']
  · intro root data hroot hdata
    constructor
    · intro hsame
      by_contra hplain
      obtain ⟨command, env, env', henv, henv', hne⟩ := exists_substituteEnv_ne hroot hdata hplain
      have hvisible : Str.isWhitespace '$' = false := by decide
      have hcommand : (Str.trim ('$' :: command)).isEmpty = false := by
        rw [Str.trim_of_noLeading, Str.trimEnd_cons hvisible]
        · rfl
        · intro c hc
          obtain rfl := Option.some.inj hc
          exact hvisible
      obtain ⟨handler, handler', hboth, hdirs, hdirs', hrun, hrun'⟩ :=
        exists_runsInBoth ops hroot hdata ('$' :: command) henv henv' hcommand
      exact hne (hrun.symm.trans ((hsame handler handler' hboth hdirs hdirs').trans hrun'))
    · intro hplain handler handler' h hdirs hdirs'
      obtain ⟨-, -, -, command, hrun, hrun'⟩ := h.same
      rw [hrun, hrun']
      exact substituteEnv_perm hroot hdata hplain hdirs hdirs' command

theorem plainDir_of_not_mem {dir : Str} (h : '$' ∉ dir) : PlainDir dir where
  not_within := fun ref href => (isRef_pluginReferences ref href).not_within h
  not_begun := by
    intro ref href begun hne hbegun hsuffix
    obtain ⟨name, rfl, -, -⟩ := (isRef_pluginReferences ref href).shape
    obtain ⟨c, rest, rfl⟩ := exists_cons_of_ne_nil hne
    obtain rfl := (cons_prefix_cons.mp hbegun).1
    exact h (hsuffix.mem mem_cons_self)

def sampleOps : DiscoveryOps where
  windows := false
  regexError _ := none
  debugText text := text
  hashing :=
    { toVec := Value.codeBytes, toVec_injective := Value.codeBytes_injective, sha256 := id
      sha256_injective := Function.injective_id }

theorem isAbsoluteText_slash (rest : Str) : IsAbsoluteText ('/' :: rest) :=
  ⟨[], '/', rest, rfl, not_mem_nil, mem_cons_self⟩

theorem trust_covers_plain_dirs :
    ∃ handler handler', RunsInBoth sampleOps handler handler' ∧ HasDirs "/p".toList "/d".toList handler ∧
      HasDirs "/p".toList "/d".toList handler' ∧ handler.command = handler'.command := by
  obtain ⟨handler, handler', hboth, hdirs, hdirs', -, -⟩ :=
    exists_runsInBoth sampleOps (isAbsoluteText_slash ['p']) (isAbsoluteText_slash ['d']) "$\x7bPLUGIN_ROOT\x7d/run".toList
      (List.Perm.refl _) (reverse_perm _) (by decide +kernel)
  have hplain : PlainDir "/p".toList ∧ PlainDir "/d".toList :=
    ⟨plainDir_of_not_mem (by decide), plainDir_of_not_mem (by decide)⟩
  have hsame := ((trust_covers_iff sampleOps).2 _ _ (isAbsoluteText_slash ['p']) (isAbsoluteText_slash ['d'])).mpr hplain
  exact ⟨handler, handler', hboth, hdirs, hdirs', hsame handler handler' hboth hdirs hdirs'⟩

/-- The root of the plugin has a reference to its data in its name, and the trusted hook runs two different commands. -/
theorem trust_not_covers_reference : ∃ handler handler', RunsInBoth sampleOps handler handler' ∧
      HasDirs "/p/$\x7bPLUGIN_DATA\x7d".toList "/d".toList handler ∧
      HasDirs "/p/$\x7bPLUGIN_DATA\x7d".toList "/d".toList handler' ∧ handler.command = "/p//d/run".toList ∧
      handler'.command = "/p/$\x7bPLUGIN_DATA\x7d/run".toList := by
  obtain ⟨handler, handler', hboth, hdirs, hdirs', hrun, hrun'⟩ :=
    exists_runsInBoth sampleOps (isAbsoluteText_slash "p/$\x7bPLUGIN_DATA\x7d".toList) (isAbsoluteText_slash ['d'])
      "$\x7bPLUGIN_ROOT\x7d/run".toList (List.Perm.refl _) (reverse_perm _) (by decide +kernel)
  refine ⟨handler, handler', hboth, hdirs, hdirs', hrun.trans ?_, hrun'.trans ?_⟩
  · decide +kernel
  · decide +kernel

end Dcode.Hooks
