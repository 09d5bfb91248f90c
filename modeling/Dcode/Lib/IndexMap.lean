import Dcode.Lib.SortedAssoc

/-!
# Maps in the order of insertion

A map that remembers the order its keys were put in, as the list of its entries. Its keys are pairwise different
(`UniqueKeys`); lookups and updates are by key, and setting a key that is there keeps its place.
-/

namespace IndexMap

open List SortedAssoc

variable {K V : Type}

def keys (m : List (K × V)) : List K := m.map Prod.fst

def UniqueKeys (m : List (K × V)) : Prop := (keys m).Nodup

@[simp]
theorem keys_cons (e : K × V) (m : List (K × V)) : keys (e :: m) = e.1 :: keys m := rfl

theorem uniqueKeys_nil : UniqueKeys ([] : List (K × V)) := nodup_nil

variable {m : List (K × V)}

theorem uniqueKeys_cons {e : K × V} : UniqueKeys (e :: m) ↔ e.1 ∉ keys m ∧ UniqueKeys m :=
  nodup_cons

variable [DecidableEq K]

def get (k : K) : List (K × V) → Option V
  | [] => none
  | e :: m => if k = e.1 then some e.2 else get k m

/-- Sets the value at a key, in place if the key is there and at the end if not. -/
def insert (k : K) (v : V) : List (K × V) → List (K × V)
  | [] => [(k, v)]
  | e :: m => if k = e.1 then (k, v) :: m else e :: insert k v m

def retain (p : K → Bool) (m : List (K × V)) : List (K × V) := m.filter fun e => p e.1

def remove (k : K) (m : List (K × V)) : List (K × V) := retain (fun k' => decide (k' ≠ k)) m

def ofEntries (m : List (K × V)) : List (K × V) := m.foldl (fun acc e => insert e.1 e.2 acc) []

/-! ## Lookups -/

@[simp]
theorem get_nil (k : K) : get k ([] : List (K × V)) = none := rfl

theorem get_cons (k : K) (e : K × V) (m : List (K × V)) : get k (e :: m) = if k = e.1 then some e.2 else get k m := rfl

variable {k : K}

theorem get_eq_none_iff : get k m = none ↔ k ∉ keys m := by
  induction m with
  | nil => simp [keys]
  | cons e m ih =>
    rw [get_cons]
    split
    next heq => simp [heq]
    next hne => simp [hne, ih]

theorem mem_of_get {v : V} (h : get k m = some v) : (k, v) ∈ m := by
  induction m with
  | nil => cases h
  | cons e m ih =>
    rw [get_cons] at h
    split at h
    next heq =>
      obtain rfl := Option.some.inj h
      rw [heq]
      exact mem_cons_self
    next => exact mem_cons_of_mem _ (ih h)

theorem get_of_mem {v : V} (hunique : UniqueKeys m) (h : (k, v) ∈ m) : get k m = some v := by
  induction m with
  | nil => cases h
  | cons e m ih =>
    obtain ⟨hfresh, hrest⟩ := uniqueKeys_cons.mp hunique
    rw [get_cons]
    rcases mem_cons.mp h with rfl | h
    · rw [if_pos rfl]
    · have hne : k ≠ e.1 := by
        rintro rfl
        exact hfresh (mem_map.mpr ⟨_, h, rfl⟩)
      rw [if_neg hne, ih hrest h]

theorem get_insert (k k' : K) (v : V) (m : List (K × V)) :
    get k' (insert k v m) = if k' = k then some v else get k' m := by
  induction m with
  | nil => rfl
  | cons e m ih =>
    rw [insert]
    split
    next heq =>
      subst heq
      rw [get_cons, get_cons]
      by_cases hk : k' = e.1
      · rw [if_pos hk, if_pos hk]
      · rw [if_neg hk, if_neg hk, if_neg hk]
    next hne =>
      rw [get_cons, ih, get_cons]
      by_cases hk : k' = e.1
      · have hother : k' ≠ k := fun h => hne (h.symm.trans hk)
        rw [if_pos hk, if_neg hother, if_pos hk]
      · rw [if_neg hk, if_neg hk]

theorem get_retain (p : K → Bool) (k : K) (m : List (K × V)) : get k (retain p m) = if p k then get k m else none := by
  induction m with
  | nil => simp [retain]
  | cons e m ih =>
    rw [retain, filter_cons, get_cons]
    by_cases hk : k = e.1
    · subst hk
      by_cases hp : p e.1
      · rw [if_pos hp, get_cons, if_pos rfl, if_pos hp, if_pos rfl]
      · rw [if_neg hp, if_neg hp]
        rw [if_neg hp] at ih
        exact ih
    · rw [if_neg hk, ← ih, retain]
      split
      · rw [get_cons, if_neg hk]
      · rfl

theorem get_remove (k k' : K) (m : List (K × V)) : get k' (remove k m) = if k' = k then none else get k' m := by
  rw [remove, get_retain]
  by_cases h : k' = k <;> simp

/-! ## Keys -/

theorem keys_insert (k : K) (v : V) (m : List (K × V)) :
    keys (insert k v m) = if k ∈ keys m then keys m else keys m ++ [k] := by
  induction m with
  | nil => rfl
  | cons e m ih =>
    rw [insert]
    split
    next heq => simp [heq]
    next hne =>
      rw [keys_cons, ih]
      by_cases hk : k ∈ keys m <;> simp [hk, hne]

theorem UniqueKeys.insert (h : UniqueKeys m) (k : K) (v : V) : UniqueKeys (insert k v m) := by
  rw [UniqueKeys, keys_insert]
  split
  next => exact h
  next hfresh => exact nodup_append.mpr ⟨h, nodup_singleton k, fun a ha b hb hab =>
      hfresh (mem_singleton.mp hb ▸ hab ▸ ha)⟩

omit [DecidableEq K] in
theorem UniqueKeys.retain (h : UniqueKeys m) (p : K → Bool) : UniqueKeys (retain p m) :=
  Nodup.sublist (Sublist.map Prod.fst filter_sublist) h

theorem UniqueKeys.remove (h : UniqueKeys m) (k : K) : UniqueKeys (remove k m) := h.retain _

/-! ## Inserting many entries -/

theorem UniqueKeys.foldl_insert {acc : List (K × V)} (h : UniqueKeys acc) (m : List (K × V)) :
    UniqueKeys (m.foldl (fun acc e => IndexMap.insert e.1 e.2 acc) acc) := by
  exact foldlRecOn m _ h fun _ h e _ => h.insert e.1 e.2

theorem uniqueKeys_ofEntries (m : List (K × V)) : UniqueKeys (ofEntries m) := uniqueKeys_nil.foldl_insert m

/-- The entries of a map, inserted one by one into a map of any kind. -/
theorem lookup_foldl {M : Type} {look : K → M → Option V} {put : K → V → M → M}
    (hput : ∀ k k' v acc, look k' (put k v acc) = if k' = k then some v else look k' acc) (hunique : UniqueKeys m) (acc : M)
    (k : K) : look k (m.foldl (fun acc e => put e.1 e.2 acc) acc) = (get k m).or (look k acc) := by
  induction m generalizing acc with
  | nil => rfl
  | cons e m ih =>
    obtain ⟨hfresh, hrest⟩ := uniqueKeys_cons.mp hunique
    rw [foldl_cons, ih hrest, hput, get_cons]
    by_cases hk : k = e.1
    · rw [if_pos hk, if_pos hk, get_eq_none_iff.mpr (hk ▸ hfresh)]
      rfl
    · rw [if_neg hk, if_neg hk]

theorem get_foldl_insert (hunique : UniqueKeys m) (acc : List (K × V)) (k : K) :
    get k (m.foldl (fun acc e => insert e.1 e.2 acc) acc) = (get k m).or (get k acc) := lookup_foldl get_insert hunique acc k

theorem insert_of_notMem (h : k ∉ keys m) (v : V) : insert k v m = m ++ [(k, v)] := by
  induction m with
  | nil => rfl
  | cons e m ih =>
    rw [keys_cons, mem_cons, not_or] at h
    rw [insert, if_neg h.1, ih h.2, cons_append]

theorem foldl_insert_of_uniqueKeys {acc : List (K × V)} (h : UniqueKeys (acc ++ m)) :
    m.foldl (fun acc e => insert e.1 e.2 acc) acc = acc ++ m := by
  induction m generalizing acc with
  | nil => exact (append_nil acc).symm
  | cons e m ih =>
    have hfresh : e.1 ∉ keys acc := by
      rw [UniqueKeys, keys, map_append, nodup_append] at h
      exact fun hmem => h.2.2 e.1 hmem e.1 mem_cons_self rfl
    have hassoc : acc ++ e :: m = acc ++ [e] ++ m := by rw [append_assoc, singleton_append]
    rw [foldl_cons, insert_of_notMem hfresh, hassoc]
    exact ih (hassoc ▸ h)

theorem ofEntries_of_uniqueKeys (h : UniqueKeys m) : ofEntries m = m := foldl_insert_of_uniqueKeys h

/-! ## Collecting into a map in key order -/

section Collect

variable [LinearOrder K]

/-- The map of a list of entries, a later entry taking the place of an earlier one. -/
def collect (m : List (K × V)) : List (K × V) := m.foldl (fun acc e => SortedAssoc.insert e.1 e.2 acc) []

variable {acc : List (K × V)}

omit [DecidableEq K] in
theorem sorted_foldl_insert (h : SortedAssoc.Sorted acc) :
    SortedAssoc.Sorted (m.foldl (fun acc e => SortedAssoc.insert e.1 e.2 acc) acc) := by
  exact foldlRecOn m _ h fun _ h e _ => h.insert e.1 e.2

omit [DecidableEq K] in
theorem sorted_collect (m : List (K × V)) : Sorted (collect m) := sorted_foldl_insert Pairwise.nil

theorem get_collect (hunique : UniqueKeys m) (k : K) : SortedAssoc.get k (collect m) = get k m := by
  have hput : ∀ k k' v (acc : List (K × V)), SortedAssoc.get k' (SortedAssoc.insert k v acc) =
      if k' = k then some v else SortedAssoc.get k' acc := by
    intro k k' v acc
    convert SortedAssoc.get_insert k k' v acc
  exact (lookup_foldl hput hunique [] k).trans Option.or_none

omit [DecidableEq K] in
theorem uniqueKeys_of_sorted (h : Sorted m) : UniqueKeys m := by
  rw [UniqueKeys, keys, nodup_map_iff_inj_on ?_]
  · intro e he e' he' heq
    have hget := h.get_of_mem (show (e.1, e.2) ∈ m from he)
    rw [heq, h.get_of_mem (show (e'.1, e'.2) ∈ m from he')] at hget
    exact Prod.ext heq (Option.some.inj hget).symm
  · exact Pairwise.imp (fun hlt heq => absurd hlt (by simp [heq])) h

/-- Looking up in key order and in the order of insertion is the same. -/
theorem get_eq_sorted_get (k : K) (m : List (K × V)) : get k m = SortedAssoc.get k m := by
  induction m with
  | nil => rfl
  | cons e m ih =>
    rw [get_cons, SortedAssoc.get_cons, ih]
    by_cases hk : k = e.1
    · rw [if_pos hk, if_pos hk]
    · rw [if_neg hk, if_neg hk]

/-- A map in key order is what its own entries collect to. -/
theorem collect_of_sorted (h : SortedAssoc.Sorted m) : collect m = m :=
  SortedAssoc.Sorted.ext (sorted_collect m) h fun k => by
    rw [get_collect (uniqueKeys_of_sorted h), get_eq_sorted_get]

omit [DecidableEq K] in
theorem mem_of_mem_foldl_insert {e : K × V} (h : e ∈ m.foldl (fun acc e => SortedAssoc.insert e.1 e.2 acc) acc) :
    e ∈ acc ∨ e ∈ m := by
  induction m generalizing acc with
  | nil => exact .inl h
  | cons e' m ih =>
    rcases ih h with h | h
    · rcases SortedAssoc.mem_insert h with rfl | h
      · exact .inr mem_cons_self
      · exact .inl h
    · exact .inr (mem_cons_of_mem _ h)

omit [DecidableEq K] in
theorem mem_of_mem_collect {e : K × V} (h : e ∈ collect m) : e ∈ m :=
  (mem_of_mem_foldl_insert h).resolve_left not_mem_nil

/-- Maps in key order with the same keys list them the same way. -/
theorem keys_eq_of_sorted {W : Type} {m' : List (K × W)} (hm : Sorted m) (hm' : Sorted m')
    (h : ∀ k, get k m = none ↔ get k m' = none) : keys m = keys m' := by
  have hperm : (keys m).Perm (keys m') := by
    refine (perm_ext_iff_of_nodup (uniqueKeys_of_sorted hm) (uniqueKeys_of_sorted hm')).mpr fun k => ?_
    rw [← not_iff_not, ← get_eq_none_iff, ← get_eq_none_iff]
    exact h k
  have hlt : (keys m).Pairwise (· < ·) := pairwise_map.mpr hm
  have hlt' : (keys m').Pairwise (· < ·) := pairwise_map.mpr hm'
  exact Perm.eq_of_pairwise (fun a b _ _ hab hba => absurd (lt_trans hab hba) (lt_irrefl a)) hlt hlt' hperm

end Collect

end IndexMap
