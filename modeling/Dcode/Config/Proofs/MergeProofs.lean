import Dcode.Config.Merge

/-!
# Denied domains under a merge

Of several spellings of a host in one table the last one counts, whether an earlier one denies the host or not.
-/

namespace Dcode.Config

open List NetworkProxy IndexMap

/-- The entries of a table that spell a host. -/
def spellings (table : NetworkDomains) (host : Str) : NetworkDomains :=
  table.filter fun e => normalizeHost e.1 = host

def Denies (table : NetworkDomains) (host : Str) : Prop := ∃ e ∈ spellings table host, e.2 = .deny

/-- If a spelling denies the host, the last one does. -/
def DeniesLast (table : NetworkDomains) (host : Str) : Prop :=
  Denies table host → (spellings table host).getLast?.map Prod.snd = some .deny

theorem get_normalizeNetworkDomainKeys (table : NetworkDomains) (host : Str) :
    get host (normalizeNetworkDomainKeys table) = (spellings table host).getLast?.map Prod.snd := by
  induction table using reverseRecOn with
  | nil => rfl
  | append_singleton table e ih =>
    rw [normalizeNetworkDomainKeys, foldl_append, foldl_cons, foldl_nil, get_insert, spellings, filter_append]
    by_cases h : host = normalizeHost e.1
    · simp [h]
    · rw [if_neg h, filter_singleton, decide_eq_false (Ne.symm h), cond_false, append_nil]
      exact ih

theorem get_mergeNetworkDomains (base overlay : NetworkDomains) (host : Str) :
    get host (mergeNetworkDomains base overlay) =
      ((spellings overlay host).getLast?.map Prod.snd).or ((spellings base host).getLast?.map Prod.snd) := by
  have hunique : UniqueKeys (normalizeNetworkDomainKeys overlay) := by
    have h := uniqueKeys_ofEntries (overlay.map fun e => (normalizeHost e.1, e.2))
    rwa [ofEntries, foldl_map] at h
  rw [mergeNetworkDomains, get_foldl_insert hunique, get_normalizeNetworkDomainKeys, get_normalizeNetworkDomainKeys]

/-- No denied host is loosened exactly if in the overlay, and in the base for the hosts that the overlay does not spell, the
last spelling of a denied host denies it. -/
theorem mergeNetworkDomains_denies_iff (base overlay : NetworkDomains) :
    (∀ host, Denies overlay host ∨ Denies base host ∧ spellings overlay host = [] →
      IndexMap.get host (mergeNetworkDomains base overlay) = some .deny) ↔
    ∀ host, DeniesLast overlay host ∧ (spellings overlay host = [] → DeniesLast base host) := by
  refine forall_congr' fun host => ?_
  rw [get_mergeNetworkDomains, DeniesLast, DeniesLast]
  rcases eq_nil_or_concat' (spellings overlay host) with hnone | ⟨front, last, hlast⟩
  · have hnot : ¬ Denies overlay host := by
      rintro ⟨e, he, -⟩
      rw [hnone] at he
      cases he
    simp [hnone, hnot]
  · simp [hlast]

/-- A table that denies and then allows two spellings of a host allows it when it is merged. -/
theorem mergeNetworkDomains_loosens :
    let overlay : NetworkDomains := [("Example.com".toList, .deny), ("example.com".toList, .allow)]
    IndexMap.UniqueKeys overlay ∧ Denies overlay "example.com".toList ∧
      IndexMap.get "example.com".toList (mergeNetworkDomains [] overlay) = some .allow := by
  refine ⟨?_, ⟨("Example.com".toList, .deny), ?_, rfl⟩, ?_⟩
  · show List.Nodup ["Example.com".toList, "example.com".toList]
    decide
  · decide
  · decide

end Dcode.Config
