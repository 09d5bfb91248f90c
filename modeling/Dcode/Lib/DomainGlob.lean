import Mathlib.Tactic

/-!
# Literals and wildcards in front of a suffix

Two kinds of patterns over a separated word: a literal, and everything in front of a separator and a
suffix. When finitely many of them match whatever one of them matches can be read off the patterns: a
literal needs a pattern that matches it, a wildcard a single wildcard whose suffix its own ends in.
-/

namespace DomainGlob

open List

variable {α : Type} (sep : α)

/-- A literal, or a non-empty word, the separator and a suffix. -/
inductive Pattern (α : Type) where
  | lit (word : List α)
  | under (suffix : List α)
deriving DecidableEq

/-- The word is the suffix with something non-empty and a separator in front. -/
def Under (suffix word : List α) : Prop := ∃ x, x ≠ [] ∧ word = x ++ sep :: suffix

namespace Pattern

def Matches : Pattern α → List α → Prop
  | lit word, w => w = word
  | under suffix, w => Under sep suffix w

/-- The second pattern's words are among the first one's, as the patterns show it. -/
def Covers : Pattern α → Pattern α → Prop
  | lit word, lit word' => word' = word
  | lit _, under _ => False
  | under suffix, lit word => Under sep suffix word
  | under suffix, under suffix' => suffix' = suffix ∨ ∃ x, suffix' = x ++ sep :: suffix

variable {sep}

theorem Covers.matches {p q : Pattern α} (h : p.Covers sep q) {w : List α}
    (hw : q.Matches sep w) : p.Matches sep w := by
  cases p with
  | lit word =>
    cases q with
    | lit word' => exact hw.trans h
    | under suffix' => exact h.elim
  | under suffix =>
    cases q with
    | lit word' =>
      obtain rfl := hw
      exact h
    | under suffix' =>
      obtain ⟨x, hx, rfl⟩ := hw
      rcases h with rfl | ⟨y, rfl⟩
      · exact ⟨x, hx, rfl⟩
      · exact ⟨x ++ sep :: y, by simp, by simp⟩

/-- A word without a separator, longer than every literal of the list. -/
def probe (c : α) (patterns : List (Pattern α)) : List α :=
  List.replicate ((patterns.map fun
    | lit word => word.length
    | under _ => 0).sum + 1) c

theorem probe_ne_nil (c : α) (patterns : List (Pattern α)) : probe c patterns ≠ [] := by
  simp [probe]

theorem length_lt_probe {c : α} {patterns : List (Pattern α)} {word : List α}
    (h : lit word ∈ patterns) : word.length < (probe c patterns).length := by
  rw [probe, length_replicate, Nat.lt_succ_iff]
  exact single_le_sum (by simp) _ (mem_map.mpr ⟨lit word, h, rfl⟩)

/-- The probe in front of a suffix is matched by a wildcard only if that covers the suffix. -/
theorem covers_of_matches_probe {c : α} (hc : c ≠ sep) {patterns : List (Pattern α)}
    {p : Pattern α} (hp : p ∈ patterns) {suffix : List α}
    (h : p.Matches sep (probe c patterns ++ sep :: suffix)) : p.Covers sep (under suffix) := by
  cases p with
  | lit word =>
    have hlen := congrArg length (show probe c patterns ++ sep :: suffix = word from h)
    have hlt := length_lt_probe (c := c) hp
    rw [length_append] at hlen
    omega
  | under suffix' =>
    obtain ⟨x, hx, heq⟩ := h
    rcases append_eq_append_iff.mp heq with ⟨y, hxy, hy⟩ | ⟨y, hxy, hy⟩
    · -- the wildcard's own separator lies at or behind the one after the probe
      cases y with
      | nil => exact .inl (List.cons.inj hy).2
      | cons d y => exact .inr ⟨y, (List.cons.inj hy).2⟩
    · cases y with
      | nil => exact .inl (List.cons.inj hy).2.symm
      | cons d y =>
        -- it lies inside the probe, which has none
        obtain ⟨rfl, -⟩ := List.cons.inj hy
        have hmem : sep ∈ probe c patterns := by rw [hxy]; simp
        exact absurd (eq_of_mem_replicate hmem).symm hc

def letters : Pattern α → List α
  | lit word => word
  | under suffix => suffix

/-- Over an alphabet with a letter beside the separator, finitely many patterns match what one matches
exactly if one of them covers it. -/
theorem forall_matches_iff {c : α} (hc : c ≠ sep) (alphabet : α → Prop) (hac : alphabet c)
    (hasep : alphabet sep) (patterns : List (Pattern α)) (q : Pattern α)
    (hq : ∀ a ∈ q.letters, alphabet a) :
    (∀ w, (∀ a ∈ w, alphabet a) → q.Matches sep w → ∃ p ∈ patterns, p.Matches sep w) ↔
      ∃ p ∈ patterns, p.Covers sep q := by
  constructor
  · intro h
    cases q with
    | lit word =>
      obtain ⟨p, hp, hm⟩ := h word hq rfl
      refine ⟨p, hp, ?_⟩
      cases p with
      | lit word' | under suffix => exact hm
    | under suffix =>
      have hword : ∀ a ∈ probe c patterns ++ sep :: suffix, alphabet a := by
        intro a ha
        rcases mem_append.mp ha with ha | ha
        · rw [eq_of_mem_replicate ha]
          exact hac
        · rcases mem_cons.mp ha with rfl | ha
          · exact hasep
          · exact hq a ha
      obtain ⟨p, hp, hm⟩ := h _ hword ⟨_, probe_ne_nil c patterns, rfl⟩
      exact ⟨p, hp, covers_of_matches_probe hc hp hm⟩
  · rintro ⟨p, hp, hcov⟩ w - hw
    exact ⟨p, hp, hcov.matches hw⟩

end Pattern

end DomainGlob
