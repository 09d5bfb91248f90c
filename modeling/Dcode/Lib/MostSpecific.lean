import Mathlib.Data.List.MinMax
import Mathlib.Data.Prod.Lex

/-!
# The most specific rule

A rule covers every list that extends its key. Among the rules that cover a list the one with the longest key
wins, and between equal keys the one with the greatest value.
-/

namespace Dcode

open List

def maxByKey {ι κ : Type} [LinearOrder κ] (key : ι → κ) (l : List ι) : Option ι := l.reverse.argmax key

theorem mem_of_maxByKey {ι κ : Type} [LinearOrder κ] {key : ι → κ} {l : List ι} {i : ι}
    (h : maxByKey key l = some i) : i ∈ l :=
  mem_reverse.mp (argmax_mem h)

theorem le_of_maxByKey {ι κ : Type} [LinearOrder κ] {key : ι → κ} {l : List ι} {i j : ι}
    (h : maxByKey key l = some i) (hj : j ∈ l) : key j ≤ key i :=
  le_of_mem_argmax (mem_reverse.mpr hj) h

theorem maxByKey_eq_none {ι κ : Type} [LinearOrder κ] {key : ι → κ} {l : List ι} : maxByKey key l = none ↔ l = [] := by
  rw [maxByKey, argmax_eq_none, reverse_eq_nil_iff]

namespace MostSpecific

variable {ι α β : Type} [LinearOrder β] {key : ι → List α} {value : ι → β}

variable (key value) in
/-- Of the rules that cover the target, `i` is the one that decides. -/
structure Wins (rules : List ι) (target : List α) (i : ι) : Prop where
  mem : i ∈ rules
  covers : key i <+: target
  longest : ∀ j ∈ rules, key j <+: target → (key j).length ≤ (key i).length
  greatest : ∀ j ∈ rules, key j = key i → value j ≤ value i

variable {rules : List ι} {target : List α} {i j : ι}

theorem wins_of_le (hi : i ∈ rules) (hc : key i <+: target) (h : ∀ j ∈ rules, key j <+: target →
      toLex ((key j).length, value j) ≤ toLex ((key i).length, value i)) :
    Wins key value rules target i where
  mem := hi
  covers := hc
  longest := by
    intro j hj hcj
    rcases Prod.Lex.le_iff.mp (h j hj hcj) with hlt | ⟨heq, -⟩
    · exact Nat.le_of_lt hlt
    · exact Nat.le_of_eq heq
  greatest := by
    intro j hj heq
    rcases Prod.Lex.le_iff.mp (h j hj (heq ▸ hc)) with hlt | ⟨-, hle⟩
    · exact absurd (congrArg length heq) (Nat.ne_of_lt hlt)
    · exact hle

namespace Wins

section

variable (h : Wins key value rules target i)

include h

/-- The keys of the other rules lie above the key of the winner. -/
theorem key_prefix (hj : j ∈ rules) (hc : key j <+: target) : key j <+: key i :=
  prefix_of_prefix_length_le hc h.covers (h.longest j hj hc)

theorem between {other : List α} (hi : key i <+: other) (ho : other <+: target) : Wins key value rules other i :=
  ⟨h.mem, hi, fun j hj hc => h.longest j hj (hc.trans ho), h.greatest⟩

theorem self : Wins key value rules (key i) i :=
  h.between (prefix_refl _) h.covers

/-- The winner wins in every list that has it and, of the rules that cover the target, no others. -/
theorem of_covering {others : List ι} (hi : i ∈ others) (hsub : ∀ j ∈ others, key j <+: target → j ∈ rules) :
    Wins key value others target i where
  mem := hi
  covers := h.covers
  longest := fun j hj hc => h.longest j (hsub j hj hc) hc
  greatest := fun j hj heq => h.greatest j (hsub j hj (heq ▸ h.covers)) heq

end

theorem key_eq (hi : Wins key value rules target i) (hj : Wins key value rules target j) : key i = key j :=
  (hj.key_prefix hi.mem hi.covers).eq_of_length_le (hi.longest j hj.mem hj.covers)

theorem value_eq (hi : Wins key value rules target i) (hj : Wins key value rules target j) : value i = value j :=
  le_antisymm (hj.greatest i hi.mem (hi.key_eq hj)) (hi.greatest j hj.mem (hj.key_eq hi))

end Wins

theorem exists_wins [DecidableEq α] (hj : j ∈ rules) (hc : key j <+: target) : ∃ i, Wins key value rules target i := by
  cases h : maxByKey (fun i => toLex ((key i).length, value i)) (rules.filter fun i => key i <+: target) with
  | none =>
    have hmem : j ∈ rules.filter fun i => key i <+: target := mem_filter.mpr ⟨hj, by simpa using hc⟩
    rw [maxByKey_eq_none.mp h] at hmem
    cases hmem
  | some i =>
    obtain ⟨hi, hci⟩ := mem_filter.mp (mem_of_maxByKey h)
    refine ⟨i, wins_of_le hi (by simpa using hci) ?_⟩
    intro k hk hck
    have hmem : k ∈ rules.filter fun i => key i <+: target := mem_filter.mpr ⟨hk, by simpa using hck⟩
    have hle := le_of_maxByKey h hmem
    exact hle

end MostSpecific

end Dcode
