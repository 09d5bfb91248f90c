import Mathlib.Tactic

/-!
# Logs with numbered entries

The entries of a log are numbered from one on without gaps. So an entry is known by its number, and the first entries are
those with the smallest numbers.
-/

namespace NumberedLog

open List Finset

variable {α : Type} {seq : α → Option Nat} {log : List α}

def Numbered (seq : α → Option Nat) (log : List α) : Prop := ∀ i a, log[i]? = some a → seq a = some (i + 1)

theorem numbered_nil : Numbered seq [] := by
  intro i a h
  simp at h

variable {a : α}

theorem Numbered.concat (h : Numbered seq log) (ha : seq a = some (log.length + 1)) : Numbered seq (log ++ [a]) := by
  intro i b hb
  rcases Nat.lt_trichotomy i log.length with hi | hi | hi
  · rw [getElem?_append_left hi] at hb
    exact h i b hb
  · subst hi
    rw [getElem?_concat_length] at hb
    obtain rfl := Option.some.inj hb
    exact ha
  · rw [getElem?_eq_none (by rw [length_append, length_singleton]; omega)] at hb
    cases hb

theorem Numbered.of_append {rest : List α} (h : Numbered seq (log ++ rest)) : Numbered seq log := by
  intro i a ha
  refine h i a ?_
  rw [getElem?_append_left (List.getElem?_eq_some_iff.mp ha).1]
  exact ha

variable {n : Nat}

section

variable (h : Numbered seq log)

include h

theorem Numbered.getElem? (ha : a ∈ log) (hn : seq a = some n) : 1 ≤ n ∧ log[n - 1]? = some a := by
  obtain ⟨i, hi⟩ := mem_iff_getElem?.mp ha
  have hnumber := h i a hi
  rw [hn] at hnumber
  obtain rfl := Option.some.inj hnumber
  exact ⟨Nat.le_add_left 1 i, hi⟩

theorem Numbered.le_length (ha : a ∈ log) (hn : seq a = some n) : n ≤ log.length := by
  obtain ⟨hpos, hget⟩ := h.getElem? ha hn
  have hlt := (List.getElem?_eq_some_iff.mp hget).1
  omega

theorem Numbered.exists_seq (ha : a ∈ log) : ∃ n, seq a = some n := by
  obtain ⟨i, hi⟩ := mem_iff_getElem?.mp ha
  exact ⟨i + 1, h i a hi⟩

theorem Numbered.exists_mem (hpos : 1 ≤ n) (hle : n ≤ log.length) : ∃ a ∈ log, seq a = some n := by
  have hlt : n - 1 < log.length := by omega
  refine ⟨log[n - 1], getElem_mem hlt, ?_⟩
  have hnumber := h (n - 1) _ (getElem?_eq_getElem hlt)
  rw [hnumber]
  congr 1
  omega

theorem Numbered.eq_of_seq {b : α} (ha : a ∈ log) (hb : b ∈ log) (hna : seq a = some n) (hnb : seq b = some n) :
    a = b := by
  have hget := (h.getElem? ha hna).2
  rw [(h.getElem? hb hnb).2] at hget
  exact (Option.some.inj hget).symm

theorem Numbered.take_succ (ha : a ∈ log) (hn : seq a = some (n + 1)) : log.take (n + 1) = log.take n ++ [a] := by
  obtain ⟨-, hget⟩ := h.getElem? ha hn
  rw [Nat.add_sub_cancel] at hget
  rw [take_add_one, hget]
  rfl

theorem Numbered.mem_take (ha : a ∈ log) {m : Nat} (hn : seq a = some n) : a ∈ log.take m ↔ n ≤ m := by
  obtain ⟨hpos, hget⟩ := h.getElem? ha hn
  constructor
  · intro hmem
    obtain ⟨i, hi⟩ := mem_iff_getElem?.mp hmem
    rw [getElem?_take] at hi
    split at hi
    · have hnumber := h i a hi
      rw [hn] at hnumber
      have hsucc := Option.some.inj hnumber
      omega
    · cases hi
  · intro hle
    refine mem_iff_getElem?.mpr ⟨n - 1, ?_⟩
    rw [getElem?_take_of_lt (by omega)]
    exact hget

theorem Numbered.take (n : Nat) : Numbered seq (log.take n) := by
  rw [← take_append_drop n log] at h
  exact h.of_append

/-- The number of an entry tells how many entries there are behind it. -/
theorem Numbered.seq_of_suffix {later : List α} (hsuffix : a :: later <:+ log) :
    seq a = some (log.length - later.length) := by
  obtain ⟨earlier, rfl⟩ := hsuffix
  have hget : (earlier ++ a :: later)[earlier.length]? = some a := by
    rw [getElem?_append_right (Nat.le_refl _), Nat.sub_self]
    rfl
  rw [h _ _ hget, length_append, length_cons]
  congr 1
  omega

theorem Numbered.mem_drop {m : Nat} (ha : a ∈ log.drop m) (hn : seq a = some n) : m < n := by
  obtain ⟨i, hi⟩ := mem_iff_getElem?.mp ha
  rw [getElem?_drop] at hi
  have hnumber := h _ _ hi
  rw [hn] at hnumber
  have hsucc := Option.some.inj hnumber
  omega

theorem Numbered.pairwise : log.Pairwise fun a b => ∀ n m, seq a = some n → seq b = some m → n < m := by
  rw [pairwise_iff_getElem]
  intro i j hi hj hij n m hn hm
  have hi' := h i _ (getElem?_eq_getElem hi)
  have hj' := h j _ (getElem?_eq_getElem hj)
  rw [hn] at hi'
  rw [hm] at hj'
  have hni := Option.some.inj hi'
  have hmj := Option.some.inj hj'
  omega

end

/-! ## Counting the numbers that are there -/

section Counting

variable {numbers : List Nat} {lo hi : Nat}

/-- The numbers of an interval that are not there are as many as the count leaves. -/
theorem card_missing (hnodup : numbers.Nodup) (hrange : ∀ n ∈ numbers, lo < n ∧ n ≤ hi) :
    (Ioc lo hi \ numbers.toFinset).card = hi - lo - numbers.length := by
  have hsubset : numbers.toFinset ⊆ Ioc lo hi := by
    intro n hn
    exact mem_Ioc.mpr (hrange n (mem_toFinset.mp hn))
  rw [card_sdiff_of_subset hsubset, Nat.card_Ioc, toFinset_card_of_nodup hnodup]

theorem mem_missing : n ∈ Ioc lo hi \ numbers.toFinset ↔ (lo < n ∧ n ≤ hi) ∧ n ∉ numbers := by
  rw [mem_sdiff, mem_Ioc, mem_toFinset]

theorem mem_of_count_eq_zero (hnodup : numbers.Nodup) (hrange : ∀ n ∈ numbers, lo < n ∧ n ≤ hi)
    (hcount : hi - lo - numbers.length = 0) (hlo : lo < n) (hhi : n ≤ hi) : n ∈ numbers := by
  by_contra hn
  have hcard := card_missing hnodup hrange
  rw [hcount, card_eq_zero] at hcard
  have hmem := mem_missing.mpr ⟨⟨hlo, hhi⟩, hn⟩
  rw [hcard] at hmem
  exact absurd hmem (notMem_empty n)

theorem eq_of_count_eq_one (hnodup : numbers.Nodup) (hrange : ∀ n ∈ numbers, lo < n ∧ n ≤ hi)
    (hcount : hi - lo - numbers.length = 1) {m : Nat} (hn : (lo < n ∧ n ≤ hi) ∧ n ∉ numbers)
    (hm : (lo < m ∧ m ≤ hi) ∧ m ∉ numbers) : n = m := by
  have hcard := card_missing hnodup hrange
  rw [hcount] at hcard
  exact card_le_one.mp hcard.le n (mem_missing.mpr hn) m (mem_missing.mpr hm)

end Counting

end NumberedLog
