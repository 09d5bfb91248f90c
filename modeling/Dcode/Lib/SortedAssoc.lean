import Mathlib.Tactic

/-!
# Maps as association lists in key order

A finite map is the list of its entries in strictly increasing key order, so that two maps are equal exactly
when they look up the same: the map type itself is a plain list and can occur inside an inductive type.
-/

namespace SortedAssoc

open List

variable {K V : Type} [LinearOrder K]

def Sorted (m : List (K × V)) : Prop := m.Pairwise fun a b => a.1 < b.1

instance (m : List (K × V)) : Decidable (Sorted m) :=
  inferInstanceAs (Decidable (m.Pairwise fun a b => a.1 < b.1))

def get (k : K) : List (K × V) → Option V
  | [] => none
  | (k', v) :: rest => if k = k' then some v else get k rest

def insert (k : K) (v : V) : List (K × V) → List (K × V)
  | [] => [(k, v)]
  | (k', v') :: rest =>
    if k < k' then (k, v) :: (k', v') :: rest
    else if k = k' then (k, v) :: rest
    else (k', v') :: insert k v rest

def remove (k : K) (m : List (K × V)) : List (K × V) := m.filter fun e => e.1 ≠ k

/-! ## Lookups -/

@[simp]
theorem get_nil (k : K) : get k ([] : List (K × V)) = none := rfl

theorem get_cons (k k' : K) (v : V) (m : List (K × V)) :
    get k ((k', v) :: m) = if k = k' then some v else get k m := rfl

theorem get_insert (k k' : K) (v : V) (m : List (K × V)) :
    get k' (insert k v m) = if k' = k then some v else get k' m := by
  induction m with
  | nil => simp [insert, get]
  | cons e m ih =>
    obtain ⟨j, w⟩ := e
    simp only [insert]
    split
    · simp [get]
    · split
      next h =>
        subst h
        by_cases hk : k' = k <;> simp [get, hk]
      next h =>
        by_cases hj : k' = j
        · subst hj
          simp [get, Ne.symm h]
        · simp [get, hj, ih]

theorem get_remove (k k' : K) (m : List (K × V)) : get k' (remove k m) = if k' = k then none else get k' m := by
  induction m with
  | nil => simp [remove]
  | cons e m ih =>
    obtain ⟨j, w⟩ := e
    have hcons : remove k ((j, w) :: m) = if j = k then remove k m else (j, w) :: remove k m := by
      by_cases hj : j = k <;> simp [remove, hj]
    rw [hcons]
    split
    next hj =>
      subst hj
      rw [ih]
      by_cases hk : k' = j <;> simp [get, hk]
    next hj =>
      by_cases hk : k' = j
      · subst hk
        simp [get, hj]
      · simp [get, hk, ih]

variable {k : K} {v : V} {m : List (K × V)}

theorem mem_of_get (h : get k m = some v) : (k, v) ∈ m := by
  induction m with
  | nil => simp at h
  | cons e m ih =>
    obtain ⟨j, w⟩ := e
    rw [get_cons] at h
    split at h
    next hk => simp_all
    next => exact mem_cons_of_mem _ (ih h)

theorem get_eq_none_of_forall (h : ∀ e ∈ m, e.1 ≠ k) : get k m = none := by
  induction m with
  | nil => rfl
  | cons e m ih =>
    rw [forall_mem_cons] at h
    rw [get_cons, if_neg (Ne.symm h.1), ih h.2]

/-! ## The order of the keys -/

variable {e : K × V}

theorem Sorted.tail (h : Sorted (e :: m)) : Sorted m :=
  (pairwise_cons.mp h).2

theorem Sorted.lt {e' : K × V} (h : Sorted (e :: m)) (he : e' ∈ m) : e.1 < e'.1 :=
  (pairwise_cons.mp h).1 _ he

theorem mem_insert (h : e ∈ insert k v m) : e = (k, v) ∨ e ∈ m := by
  induction m with
  | nil => simpa [insert] using h
  | cons e' m ih =>
    simp only [insert] at h
    split at h
    · simpa using h
    · split at h
      · have := mem_cons.mp h
        exact this.imp_right (mem_cons_of_mem _)
      · rcases mem_cons.mp h with rfl | h
        · exact .inr mem_cons_self
        · exact (ih h).imp_right (mem_cons_of_mem _)

theorem Sorted.insert (h : Sorted m) (k : K) (v : V) : Sorted (SortedAssoc.insert k v m) := by
  induction m with
  | nil => exact pairwise_singleton _ _
  | cons e m ih =>
    simp only [SortedAssoc.insert]
    split
    next hlt =>
      refine pairwise_cons.mpr ⟨fun e' he' => ?_, h⟩
      rcases mem_cons.mp he' with rfl | he'
      · exact hlt
      · exact hlt.trans (h.lt he')
    next hlt =>
      split
      next heq =>
        subst heq
        exact pairwise_cons.mpr ⟨fun e' he' => h.lt he', h.tail⟩
      next hne =>
        refine pairwise_cons.mpr ⟨fun e' he' => ?_, ih h.tail⟩
        rcases mem_insert he' with rfl | he'
        · exact lt_of_le_of_ne (not_lt.mp hlt) (Ne.symm hne)
        · exact h.lt he'

theorem Sorted.remove (h : Sorted m) (k : K) : Sorted (SortedAssoc.remove k m) :=
  Pairwise.filter _ h

theorem Sorted.get_of_mem (h : Sorted m) (hm : (k, v) ∈ m) : get k m = some v := by
  induction m with
  | nil => simp at hm
  | cons e m ih =>
    rcases mem_cons.mp hm with rfl | hm
    · simp [get]
    · rw [get_cons, if_neg (h.lt hm).ne', ih h.tail hm]

/-! ## Entries -/

theorem length_remove_lt (h : get k m = some v) : (remove k m).length < m.length := by
  refine length_filter_lt_length_iff_exists.mpr ⟨(k, v), mem_of_get h, ?_⟩
  simp

theorem insert_perm (h : get k m = none) (v : V) : (insert k v m).Perm ((k, v) :: m) := by
  induction m with
  | nil => exact Perm.refl _
  | cons e m ih =>
    obtain ⟨j, w⟩ := e
    rw [get_cons] at h
    split at h
    · cases h
    next hne =>
      rw [insert]
      split
      · exact Perm.refl _
      · exact ((ih h).cons (j, w)).trans (Perm.swap _ _ _)

theorem Sorted.perm_remove (hsorted : Sorted m) (h : get k m = some v) : m.Perm ((k, v) :: SortedAssoc.remove k m) := by
  induction m with
  | nil => cases h
  | cons e m ih =>
    obtain ⟨j, w⟩ := e
    rw [get_cons] at h
    split at h
    next heq =>
      obtain rfl := Option.some.inj h
      subst heq
      have hrest : SortedAssoc.remove k ((k, w) :: m) = m := by
        rw [SortedAssoc.remove, filter_cons_of_neg (by simp), filter_eq_self]
        intro e he
        simpa using (hsorted.lt he).ne'
      rw [hrest]
    next hne =>
      have hkeep : SortedAssoc.remove k ((j, w) :: m) = (j, w) :: SortedAssoc.remove k m := by
        rw [SortedAssoc.remove, filter_cons_of_pos (by simpa using Ne.symm hne)]
        rfl
      rw [hkeep]
      exact ((ih hsorted.tail h).cons (j, w)).trans (Perm.swap _ _ _)

theorem Sorted.ext {m₁ m₂ : List (K × V)} (h₁ : Sorted m₁) (h₂ : Sorted m₂)
    (h : ∀ k, get k m₁ = get k m₂) : m₁ = m₂ := by
  have hsub : ∀ {m m' : List (K × V)}, Sorted m → (∀ k, get k m = get k m') → m ⊆ m' := by
    intro m m' hs hg e he
    exact mem_of_get ((hg e.1).symm.trans (hs.get_of_mem he))
  refine Perm.eq_of_pairwise (fun a b _ _ hab hba => absurd (hab.trans hba) (lt_irrefl _)) h₁ h₂ ?_
  have hnd : ∀ {m : List (K × V)}, Sorted m → m.Nodup := fun hs =>
    Pairwise.imp (fun hlt heq => absurd hlt (by simp [heq])) hs
  exact (perm_ext_iff_of_nodup (hnd h₁) (hnd h₂)).mpr fun e =>
    ⟨fun he => hsub h₁ h he, fun he => hsub h₂ (fun k => (h k).symm) he⟩

end SortedAssoc
