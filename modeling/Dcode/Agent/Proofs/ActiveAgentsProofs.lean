import Dcode.Agent.Registry
import Dcode.Lib.AssocCount

/-!
# The tree of agents and the paths of their threads

Whatever is called, a thread with a key is the one the tree has there. The maps part only where the root takes a thread
that has another key, and a commit adds a live agent only if it is of a new thread at a free key.
-/

namespace Dcode.Agent

open AssocCount Option AgentMetadata Bool

theorem AgentMetadata.key_eq_rootPath (metadata : AgentMetadata) (threadId : ThreadId) :
    metadata.key threadId = rootPath ↔ metadata.isRootAgent := by
  unfold key isRootAgent
  cases metadata.agentPath with
  | none => simp [rootPath]
  | some agentPath => simp [AgentPath.isRoot]

theorem ActiveAgents.length_liveAgents (agents : ActiveAgents) :
    agents.liveAgents.length = count isLive agents.agentTree := by
  unfold ActiveAgents.liveAgents count
  rw [← List.countP_eq_length_filter, List.countP_map]
  rfl

namespace ActiveAgents

/-- What holds whatever is called: a thread with a key is the one the tree has there, and the root is at its own key. -/
structure Sound (agents : ActiveAgents) : Prop where
  owned : ∀ threadId key, agents.threadPaths.lookup threadId = some key →
    ∃ metadata, agents.agentTree.lookup key = some metadata ∧ metadata.agentId = some threadId
  root_iff : ∀ key metadata, agents.agentTree.lookup key = some metadata → (metadata.isRootAgent ↔ key = rootPath)

variable {agents : ActiveAgents}

theorem sound_empty : Sound {} where
  owned threadId key h := by simp at h
  root_iff key metadata h := by simp at h

def threadAt (tree : AList fun _ : Str => AgentMetadata) (key : Str) : Option ThreadId := (tree.lookup key).bind (·.agentId)

theorem sound_iff : agents.Sound ↔
    (∀ threadId key, agents.threadPaths.lookup threadId = some key → threadAt agents.agentTree key = some threadId) ∧
      ∀ key metadata, agents.agentTree.lookup key = some metadata → (metadata.isRootAgent ↔ key = rootPath) := by
  simp only [threadAt, bind_eq_some_iff]
  exact ⟨fun h => ⟨h.owned, h.root_iff⟩, fun h => ⟨h.1, h.2⟩⟩

theorem inverse_iff : agents.Inverse ↔
    ∀ threadId key, agents.threadPaths.lookup threadId = some key ↔ threadAt agents.agentTree key = some threadId := by
  simp only [threadAt, bind_eq_some_iff]
  rfl

theorem lookup_insert_ite {α β : Type} [DecidableEq α] (m : AList fun _ : α => β) (a a' : α) (b : β) :
    (m.insert a b).lookup a' = if a' = a then some b else m.lookup a' := by
  split
  next heq =>
    rw [heq, AList.lookup_insert]
  next hne =>
    exact AList.lookup_insert_ne hne

theorem lookup_erase_ite {α β : Type} [DecidableEq α] (m : AList fun _ : α => β) (a a' : α) :
    (m.erase a).lookup a' = if a' = a then none else m.lookup a' := by
  split
  next heq =>
    rw [heq, AList.lookup_erase]
  next hne =>
    exact AList.lookup_erase_ne hne

theorem threadAt_insert (tree : AList fun _ : Str => AgentMetadata) (key other : Str) (metadata : AgentMetadata) :
    threadAt (tree.insert key metadata) other = if other = key then metadata.agentId else threadAt tree other := by
  rw [threadAt, lookup_insert_ite]
  split
  · rfl
  · rfl

theorem threadAt_erase (tree : AList fun _ : Str => AgentMetadata) (key other : Str) :
    threadAt (tree.erase key) other = if other = key then none else threadAt tree other := by
  rw [threadAt, lookup_erase_ite]
  split
  · rfl
  · rfl

/-! ## Two partial maps that name each other -/

section

variable {T K : Type} [DecidableEq T] [DecidableEq K] {f : T → Option K} {g : K → Option T}

theorem owned_put (h : ∀ t k, f t = some k → g k = some t) {t₀ t : T} {k₀ k : K}
    (hput : (if t = t₀ then some k₀ else if g k₀ = some t then none else f t) = some k) :
    (if k = k₀ then some t₀ else if f t₀ = some k then none else g k) = some t := by
  grind

/-- The condition of `owned_put` is the same read from the other map. -/
theorem inverse_put (h : ∀ t k, f t = some k ↔ g k = some t) (t₀ t : T) (k₀ k : K) :
    (if t = t₀ then some k₀ else if g k₀ = some t then none else f t) = some k ↔
      (if k = k₀ then some t₀ else if f t₀ = some k then none else g k) = some t :=
  ⟨owned_put fun t k => (h t k).mp, owned_put fun k t => (h t k).mpr⟩

theorem owned_take (h : ∀ t k, f t = some k → g k = some t) {t₀ t : T} {k₀ k : K} (ht₀ : f t₀ = some k₀)
    (htake : (if t = t₀ then none else f t) = some k) : (if k = k₀ then none else g k) = some t := by
  grind

theorem inverse_take (h : ∀ t k, f t = some k ↔ g k = some t) {t₀ t : T} {k₀ k : K} (ht₀ : f t₀ = some k₀) :
    (if t = t₀ then none else f t) = some k ↔ (if k = k₀ then none else g k) = some t :=
  ⟨owned_take (fun t k => (h t k).mp) ht₀, owned_take (fun k t => (h t k).mpr) ((h t₀ k₀).mp ht₀)⟩

end

/-! ## Registering a thread -/

variable {metadata : AgentMetadata} {threadId : ThreadId}

theorem registerSpawnedThread_of_none (hid : metadata.agentId = none) : agents.registerSpawnedThread metadata = agents := by
  simp [registerSpawnedThread, hid]

theorem lookup_forgetPrevious (threadId : ThreadId) (key other : Str) :
    (agents.forgetPrevious threadId key).lookup other =
      if agents.threadPaths.lookup threadId = some other ∧ other ≠ key then none else agents.agentTree.lookup other := by
  unfold forgetPrevious
  cases hprevious : agents.threadPaths.lookup threadId with
  | none => simp
  | some previousKey =>
    by_cases hne : previousKey = key
    · subst hne
      have hself : ¬ (some previousKey = some other ∧ other ≠ previousKey) :=
        fun h => h.2 (some.inj h.1).symm
      rw [if_neg hself]
      simp
    · simp only [ne_eq, hne, not_false_eq_true, if_true, lookup_erase_ite]
      grind

theorem lookup_forgetPrevious_self (threadId : ThreadId) (key : Str) :
    (agents.forgetPrevious threadId key).lookup key = agents.agentTree.lookup key := by
  rw [lookup_forgetPrevious]
  simp

theorem lookup_agentTree_registerSpawnedThread (hid : metadata.agentId = some threadId) (key : Str) :
    (agents.registerSpawnedThread metadata).agentTree.lookup key =
      if key = metadata.key threadId then some metadata
      else if agents.threadPaths.lookup threadId = some key then none else agents.agentTree.lookup key := by
  simp only [registerSpawnedThread, hid, lookup_insert_ite, lookup_forgetPrevious]
  split
  · rfl
  next hne =>
    simp [hne]

theorem threadAt_registerSpawnedThread (hid : metadata.agentId = some threadId) (key : Str) :
    threadAt (agents.registerSpawnedThread metadata).agentTree key =
      if key = metadata.key threadId then some threadId
      else if agents.threadPaths.lookup threadId = some key then none else threadAt agents.agentTree key := by
  rw [threadAt, lookup_agentTree_registerSpawnedThread hid]
  split
  · exact hid
  · split
    · rfl
    · rfl

theorem lookup_forgetReplaced (paths : AList fun _ : ThreadId => Str) (previous : Option AgentMetadata)
    (threadId other : ThreadId) (key : Str) :
    (forgetReplaced (paths.insert threadId key) previous threadId).lookup other =
      if other = threadId then some key else if previous.bind (·.agentId) = some other then none else paths.lookup other := by
  unfold forgetReplaced
  cases hprevious : previous.bind (·.agentId) with
  | none => simp [lookup_insert_ite]
  | some previousThreadId =>
    by_cases hne : previousThreadId = threadId
    · simp only [hne, ne_eq, not_true_eq_false, if_false, lookup_insert_ite]
      grind
    · simp only [hne, ne_eq, not_false_eq_true, if_true, lookup_erase_ite, lookup_insert_ite]
      grind

theorem lookup_threadPaths_registerSpawnedThread (hid : metadata.agentId = some threadId) (other : ThreadId) :
    (agents.registerSpawnedThread metadata).threadPaths.lookup other =
      if other = threadId then some (metadata.key threadId)
      else if threadAt agents.agentTree (metadata.key threadId) = some other then none
      else agents.threadPaths.lookup other := by
  simp only [registerSpawnedThread, hid]
  rw [lookup_forgetReplaced, lookup_forgetPrevious_self]
  rfl

theorem Sound.registerSpawnedThread (h : agents.Sound) (metadata : AgentMetadata) :
    (agents.registerSpawnedThread metadata).Sound := by
  cases hid : metadata.agentId with
  | none => rwa [registerSpawnedThread_of_none hid]
  | some threadId =>
    refine sound_iff.mpr ⟨fun other key hother => ?_, fun key found hfound => ?_⟩
    · rw [lookup_threadPaths_registerSpawnedThread hid] at hother
      rw [threadAt_registerSpawnedThread hid]
      exact owned_put (sound_iff.mp h).1 hother
    · rw [lookup_agentTree_registerSpawnedThread hid] at hfound
      split at hfound
      next heq =>
        obtain rfl := some.inj hfound
        rw [heq, key_eq_rootPath]
      · split at hfound
        · cases hfound
        · exact h.root_iff key found hfound

theorem Inverse.registerSpawnedThread (h : agents.Inverse) (metadata : AgentMetadata) :
    (agents.registerSpawnedThread metadata).Inverse := by
  cases hid : metadata.agentId with
  | none => rwa [registerSpawnedThread_of_none hid]
  | some threadId =>
    refine inverse_iff.mpr fun other key => ?_
    rw [lookup_threadPaths_registerSpawnedThread hid, threadAt_registerSpawnedThread hid]
    exact inverse_put (inverse_iff.mp h) threadId other (metadata.key threadId) key

def moved (agents : ActiveAgents) (threadId : ThreadId) (key : Str) : Bool :=
  (agents.threadPaths.lookup threadId).any fun previousKey =>
    previousKey ≠ key && (agents.agentTree.lookup previousKey).any AgentMetadata.isLive

theorem count_forgetPrevious (threadId : ThreadId) (key : Str) :
    count isLive (agents.forgetPrevious threadId key) + (agents.moved threadId key).toNat =
      count isLive agents.agentTree := by
  unfold forgetPrevious moved
  cases hprevious : agents.threadPaths.lookup threadId with
  | none => rfl
  | some previousKey =>
    by_cases hne : previousKey = key
    · simp [hne]
    · have herase := count_erase isLive agents.agentTree previousKey
      simpa [hne] using herase

/-- A commit adds its agent, in the place of the one its thread was and of the one at its key. -/
theorem count_registerSpawnedThread (hid : metadata.agentId = some threadId) :
    count isLive (agents.registerSpawnedThread metadata).agentTree +
        (agents.moved threadId (metadata.key threadId)).toNat +
        ((agents.agentTree.lookup (metadata.key threadId)).any isLive).toNat =
      count isLive agents.agentTree + metadata.isLive.toNat := by
  have hforget := @count_forgetPrevious agents threadId (metadata.key threadId)
  have herase := count_erase isLive (agents.forgetPrevious threadId (metadata.key threadId)) (metadata.key threadId)
  rw [lookup_forgetPrevious_self] at herase
  have hinsert := count_insert isLive (agents.forgetPrevious threadId (metadata.key threadId))
    (metadata.key threadId) metadata
  simp only [registerSpawnedThread, hid]
  omega

theorem count_registerSpawnedThread_le (agents : ActiveAgents) (metadata : AgentMetadata) :
    count isLive (agents.registerSpawnedThread metadata).agentTree ≤ count isLive agents.agentTree + 1 := by
  cases hid : metadata.agentId with
  | none => simp [registerSpawnedThread, hid]
  | some threadId =>
    have hcount := @count_registerSpawnedThread agents metadata threadId hid
    have hlive := toNat_le metadata.isLive
    omega

theorem Sound.isLive_iff (h : agents.Sound) {key : Str} {found : AgentMetadata}
    (hfound : agents.agentTree.lookup key = some found) : found.isLive ↔ found.agentId.isSome ∧ key ≠ rootPath := by
  simp [isLive, ← h.root_iff key found hfound]

/-- It adds a live agent exactly if it is of a new thread, at a free key, and not of the root. -/
theorem count_registerSpawnedThread_iff (h : agents.Sound) :
    count isLive (agents.registerSpawnedThread metadata).agentTree = count isLive agents.agentTree + 1 ↔
      ∃ threadId, metadata.agentId = some threadId ∧ metadata.isRootAgent = false ∧
        (∀ key, agents.threadPaths.lookup threadId = some key → key = rootPath) ∧
        ∀ found, agents.agentTree.lookup (metadata.key threadId) = some found → found.agentId = none := by
  cases hid : metadata.agentId with
  | none => simp [registerSpawnedThread, hid]
  | some threadId =>
    have hcount := @count_registerSpawnedThread agents metadata threadId hid
    have hisLive : metadata.isLive = !metadata.isRootAgent := by simp [isLive, hid]
    constructor
    · intro hone
      have hlive := toNat_le metadata.isLive
      have hmetadata : metadata.isLive := toNat_eq_one.mp (by omega)
      have hmoved : agents.moved threadId (metadata.key threadId) = false := toNat_eq_zero.mp (by omega)
      have hreplaced : (agents.agentTree.lookup (metadata.key threadId)).any isLive = false :=
        toNat_eq_zero.mp (by omega)
      have hroot : metadata.isRootAgent = false := by simpa [hisLive] using hmetadata
      have hfree : ∀ found, agents.agentTree.lookup (metadata.key threadId) = some found → found.agentId = none := by
        intro found hfound
        rw [hfound, any_some, ← not_eq_true, h.isLive_iff hfound, ne_eq, key_eq_rootPath, hroot] at hreplaced
        simpa using hreplaced
      refine ⟨threadId, rfl, hroot, fun key hkey => ?_, hfree⟩
      obtain ⟨found, hfound, hfoundId⟩ := h.owned threadId key hkey
      by_contra hne
      have hfoundLive := (h.isLive_iff hfound).mpr ⟨by simp [hfoundId], hne⟩
      by_cases heq : key = metadata.key threadId
      · have hnone := hfree found (heq ▸ hfound)
        rw [hfoundId] at hnone
        cases hnone
      · simp [moved, hkey, heq, hfound, hfoundLive] at hmoved
    · rintro ⟨_, hthread, hroot, honly, hfree⟩
      obtain rfl := some.inj hthread
      have hmoved : agents.moved threadId (metadata.key threadId) = false := by
        cases hkey : agents.threadPaths.lookup threadId with
        | none => simp [moved, hkey]
        | some key =>
          obtain rfl := honly key hkey
          obtain ⟨found, hfound, _⟩ := h.owned threadId rootPath hkey
          have hdead := (h.isLive_iff hfound).not.mpr (by simp)
          simp [moved, hkey, hfound, hdead]
      have hreplaced : (agents.agentTree.lookup (metadata.key threadId)).any isLive = false := by
        cases hfound : agents.agentTree.lookup (metadata.key threadId) with
        | none => rfl
        | some found => simp [isLive, hfree found hfound]
      rw [hisLive, hroot, hmoved, hreplaced] at hcount
      exact hcount

/-! ## The other calls -/

theorem Sound.releaseSpawnedThread (h : agents.Sound) (threadId : ThreadId) :
    (agents.releaseSpawnedThread threadId).1.Sound := by
  unfold ActiveAgents.releaseSpawnedThread
  cases hkey : agents.threadPaths.lookup threadId with
  | none => exact h
  | some key =>
    refine sound_iff.mpr ⟨fun other otherKey hother => ?_, fun otherKey found hfound => ?_⟩
    · simp only [lookup_erase_ite] at hother
      rw [threadAt_erase]
      exact owned_take (sound_iff.mp h).1 hkey hother
    · simp only [lookup_erase_ite] at hfound
      split at hfound
      · cases hfound
      · exact h.root_iff otherKey found hfound

/-- A release takes a live agent out exactly when it gives a slot back. -/
theorem count_releaseSpawnedThread (h : agents.Sound) (threadId : ThreadId) :
    count isLive (agents.releaseSpawnedThread threadId).1.agentTree +
      (agents.releaseSpawnedThread threadId).2.toNat = count isLive agents.agentTree := by
  unfold releaseSpawnedThread
  cases hkey : agents.threadPaths.lookup threadId with
  | none => rfl
  | some key =>
    obtain ⟨found, hfound, hfoundId⟩ := h.owned threadId key hkey
    have herase := count_erase isLive agents.agentTree key
    rw [hfound] at herase
    simp only [hfound]
    simpa [isLive, hfoundId] using herase

theorem Inverse.releaseSpawnedThread (h : agents.Inverse) (threadId : ThreadId) :
    (agents.releaseSpawnedThread threadId).1.Inverse := by
  unfold ActiveAgents.releaseSpawnedThread
  cases hkey : agents.threadPaths.lookup threadId with
  | none => exact h
  | some key =>
    refine inverse_iff.mpr fun other otherKey => ?_
    rw [threadAt_erase]
    simp only [lookup_erase_ite]
    exact inverse_take (inverse_iff.mp h) hkey

theorem isRootAgent_root (threadId : ThreadId) : isRootAgent { agentId := some threadId, agentPath := some .root } := by
  simp [isRootAgent, AgentPath.isRoot, AgentPath.root]

theorem Sound.registerRootThread (h : agents.Sound) (threadId : ThreadId) : (agents.registerRootThread threadId).Sound := by
  unfold ActiveAgents.registerRootThread
  cases hroot : agents.agentTree.lookup rootPath with
  | none =>
    have hfree : threadAt agents.agentTree rootPath = none := by rw [threadAt, hroot]; rfl
    refine sound_iff.mpr ⟨fun other key hother => ?_, fun key found hfound => ?_⟩
    · simp only [lookup_insert_ite] at hother
      rw [threadAt_insert]
      have howned := (sound_iff.mp h).1 other key
      grind
    · simp only [lookup_insert_ite] at hfound
      split at hfound
      next heq =>
        obtain rfl := some.inj hfound
        exact ⟨fun _ => heq, fun _ => isRootAgent_root threadId⟩
      · exact h.root_iff key found hfound
  | some metadata =>
    cases hid : metadata.agentId with
    | none => simpa only [hid] using h
    | some rootThreadId =>
      have hthread : threadAt agents.agentTree rootPath = some rootThreadId := by rw [threadAt, hroot]; exact hid
      simp only [hid]
      refine sound_iff.mpr ⟨fun other key hother => ?_, h.root_iff⟩
      simp only [lookup_insert_ite] at hother
      have howned := (sound_iff.mp h).1 other key
      grind

theorem count_registerRootThread (threadId : ThreadId) : count isLive (agents.registerRootThread threadId).agentTree =
      count isLive agents.agentTree := by
  unfold registerRootThread
  cases hroot : agents.agentTree.lookup rootPath with
  | none =>
    have herase := count_erase isLive agents.agentTree rootPath
    rw [hroot] at herase
    simp only [count_insert, isLive, isRootAgent_root]
    simpa using herase
  | some metadata => cases hid : metadata.agentId <;> simp [hid]

/-- The root takes a thread without parting the maps exactly if the thread has no other key. -/
theorem inverse_registerRootThread_iff (h : agents.Inverse) (threadId : ThreadId) :
    (agents.registerRootThread threadId).Inverse ↔
      (agents.agentTree.lookup rootPath = none → agents.threadPaths.lookup threadId = none) := by
  rw [inverse_iff] at h
  rw [inverse_iff, registerRootThread]
  cases hroot : agents.agentTree.lookup rootPath with
  | none =>
    have hfree : threadAt agents.agentTree rootPath = none := by rw [threadAt, hroot]; rfl
    simp only [lookup_insert_ite, threadAt_insert]
    constructor
    · intro hinverse _
      by_contra hsome
      obtain ⟨key, hkey⟩ := Option.ne_none_iff_exists'.mp hsome
      grind
    · grind
  | some metadata =>
    refine ⟨fun _ hnone => (by cases hnone), fun _ => ?_⟩
    cases hid : metadata.agentId with
    | none => simpa only [hid] using h
    | some rootThreadId =>
      have hthread : threadAt agents.agentTree rootPath = some rootThreadId := by rw [threadAt, hroot]; exact hid
      have hpath := (h rootThreadId rootPath).mpr hthread
      intro other key
      simp only [hid, lookup_insert_ite]
      rw [← h other key]
      split
      next heq =>
        rw [heq, hpath]
      · rfl

/-! A path that is only reserved has no thread. -/

structure KeepsThreads (agents after : ActiveAgents) : Prop where
  threadPaths_eq : after.threadPaths = agents.threadPaths
  exists_iff : ∀ key threadId, (∃ metadata, after.agentTree.lookup key = some metadata ∧ metadata.agentId = some threadId) ↔
    ∃ metadata, agents.agentTree.lookup key = some metadata ∧ metadata.agentId = some threadId
  root_iff : ∀ key metadata, after.agentTree.lookup key = some metadata →
    agents.agentTree.lookup key = some metadata ∨ (metadata.isRootAgent ↔ key = rootPath)
  count_eq : count AgentMetadata.isLive after.agentTree = count AgentMetadata.isLive agents.agentTree

namespace KeepsThreads

variable {after : ActiveAgents}

theorem refl (agents : ActiveAgents) : agents.KeepsThreads agents :=
  ⟨rfl, fun _ _ => Iff.rfl, fun _ _ h => .inl h, rfl⟩

theorem of_threadAt (hpaths : after.threadPaths = agents.threadPaths)
    (hthreads : ∀ key, threadAt after.agentTree key = threadAt agents.agentTree key)
    (hroot : ∀ key metadata, after.agentTree.lookup key = some metadata →
      agents.agentTree.lookup key = some metadata ∨ (metadata.isRootAgent ↔ key = rootPath))
    (hcount : count isLive after.agentTree = count isLive agents.agentTree) :
    agents.KeepsThreads after := by
  refine ⟨hpaths, fun key threadId => ?_, hroot, hcount⟩
  have hkey := hthreads key
  unfold threadAt at hkey
  rw [← bind_eq_some_iff, ← bind_eq_some_iff, hkey]

theorem sound (hkeeps : agents.KeepsThreads after) (h : agents.Sound) : after.Sound := by
  refine ⟨fun threadId key hlookup => ?_, fun key metadata hlookup => ?_⟩
  · rw [hkeeps.threadPaths_eq] at hlookup
    exact (hkeeps.exists_iff key threadId).mpr (h.owned threadId key hlookup)
  · rcases hkeeps.root_iff key metadata hlookup with hbefore | hroot
    · exact h.root_iff key metadata hbefore
    · exact hroot

theorem inverse (hkeeps : agents.KeepsThreads after) (h : agents.Inverse) : after.Inverse := by
  intro threadId key
  rw [hkeeps.threadPaths_eq, hkeeps.exists_iff]
  exact h threadId key

end KeepsThreads

theorem keepsThreads_reserveAgentPath {after : ActiveAgents} {agentPath : AgentPath}
    (hreserve : agents.reserveAgentPath agentPath = .ok after) : agents.KeepsThreads after := by
  unfold reserveAgentPath at hreserve
  cases hlookup : agents.agentTree.lookup agentPath.path with
  | some found => rw [hlookup] at hreserve; cases hreserve
  | none =>
    rw [hlookup] at hreserve
    obtain rfl := Except.ok.inj hreserve
    refine .of_threadAt rfl (fun key => ?_) (fun key metadata hmetadata => ?_) ?_
    · rw [threadAt_insert]
      split
      next heq =>
        rw [heq, threadAt, hlookup]
        rfl
      · rfl
    · simp only [lookup_insert_ite] at hmetadata
      split at hmetadata
      next heq =>
        obtain rfl := some.inj hmetadata
        simp [isRootAgent, AgentPath.isRoot, heq]
      · exact .inl hmetadata
    · have herase := count_erase isLive agents.agentTree agentPath.path
      rw [hlookup] at herase
      simp only [count_insert]
      simpa [isLive] using herase

theorem keepsThreads_releaseReservedAgentPath (agentPath : AgentPath) :
    agents.KeepsThreads (agents.releaseReservedAgentPath agentPath) := by
  unfold releaseReservedAgentPath
  split
  next hreserved =>
    cases hlookup : agents.agentTree.lookup agentPath.path with
    | none => rw [hlookup] at hreserved; cases hreserved
    | some found =>
      rw [hlookup, any_some, isNone_iff_eq_none] at hreserved
      refine .of_threadAt rfl (fun key => ?_) (fun key metadata hmetadata => ?_) ?_
      · rw [threadAt_erase]
        split
        next heq =>
          rw [heq, threadAt, hlookup]
          exact hreserved.symm
        · rfl
      · simp only [lookup_erase_ite] at hmetadata
        split at hmetadata
        · cases hmetadata
        · exact .inl hmetadata
      · have herase := count_erase isLive agents.agentTree agentPath.path
        rw [hlookup] at herase
        simpa [isLive, hreserved] using herase
  · exact .refl agents

theorem keepsThreads_reserveAgentNickname (names : List Str) (preferred : Option Str) (choose : List Str → Option Str) :
    agents.KeepsThreads (agents.reserveAgentNickname names preferred choose).2 := by
  unfold reserveAgentNickname
  split
  · exact ⟨rfl, fun _ _ => Iff.rfl, fun _ _ h => .inl h, rfl⟩
  · split
    · exact .refl agents
    · dsimp only
      split
      · exact ⟨rfl, fun _ _ => Iff.rfl, fun _ _ h => .inl h, rfl⟩
      · split
        · exact ⟨rfl, fun _ _ => Iff.rfl, fun _ _ h => .inl h, rfl⟩
        · exact ⟨rfl, fun _ _ => Iff.rfl, fun _ _ h => .inl h, rfl⟩

end ActiveAgents

end Dcode.Agent
