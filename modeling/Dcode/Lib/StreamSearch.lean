import Dcode.Lib.Str

/-!
# Searching a text that is still arriving

What a search for a delimiter may hold back at the end of a text that goes on: the longest proper prefix of the
delimiter that the text ends with (`Held`). Everything in front of it is settled, so that the search can go on with
what is held back and the rest of the text alone.
-/

namespace Str

open List Option

variable {needle : Str}

/-- A text before which the delimiter does not start moves what is found behind it. -/
theorem find_append_of_forall_not (front back : Str) (h : ∀ j < front.length, ¬ needle <+: (front ++ back).drop j) :
    find needle (front ++ back) = (find needle back).map (· + front.length) := by
  induction front with
  | nil => simp
  | cons c front ih =>
    have hfirst : ¬ needle.isPrefixOf (c :: (front ++ back)) := by
      have h0 := h 0 (by simp)
      exact isPrefixOf_iff_prefix.not.mpr h0
    have hrest : ∀ j < front.length, ¬ needle <+: (front ++ back).drop j := by
      intro j hj
      have hsucc := h (j + 1) (by simp [hj])
      exact hsucc
    rw [cons_append, find, if_neg hfirst, ih hrest]
    cases find needle back with
    | none => rfl
    | some i =>
      simp only [map_some]
      congr 1

variable {s : Str}

theorem not_prefix_of_find_eq_none (h : find needle s = none) (j : Nat) (hj : j ≤ s.length) :
    ¬ needle <+: s.drop j := by
  intro hprefix
  have hex : ∃ j, needle <+: s.drop j := ⟨j, hprefix⟩
  have hlen := (Nat.find_spec hex).length_le
  have hle := Nat.find_min' hex hprefix
  rw [length_drop] at hlen
  cases h.symm.trans (find_eq_some_iff.mpr ⟨⟨by omega, Nat.find_spec hex⟩, fun _ => Nat.find_min hex⟩)

theorem le_of_find {i : Nat} (h : find needle s = some i) : i + needle.length ≤ s.length :=
  (find_eq_some_iff.mp h).1.1

theorem find_append_of_find {i : Nat} (h : find needle s = some i) (back : Str) : find needle (s ++ back) = some i := by
  obtain ⟨⟨hle, hprefix⟩, hmin⟩ := find_eq_some_iff.mp h
  refine find_eq_some_iff.mpr ⟨⟨?_, ?_⟩, fun j hj hearlier => ?_⟩
  · rw [length_append]
    omega
  · rw [drop_append_of_le_length (by omega)]
    exact hprefix.trans (prefix_append _ _)
  · rw [drop_append_of_le_length (by omega)] at hearlier
    exact hmin j hj (prefix_of_prefix_length_le hearlier (prefix_append _ _) (by rw [length_drop]; omega))

/-! ## What is held back -/

/-- The longest proper prefix of the delimiter that the text ends with has `k` characters. -/
structure Held (needle s : Str) (k : Nat) : Prop where
  lt : k < needle.length
  suffix : needle.take k <:+ s
  max : ∀ j < needle.length, needle.take j <:+ s → j ≤ k

variable {k : Nat}

section

variable (h : Held needle s k)

include h

theorem Held.unique {k' : Nat} (h' : Held needle s k') : k = k' :=
  Nat.le_antisymm (h'.max k h.lt h.suffix) (h.max k' h'.lt h'.suffix)

theorem Held.le : k ≤ s.length := by
  have hle := h.suffix.length_le
  rw [length_take_of_le h.lt.le] at hle
  exact hle

theorem Held.drop_eq : s.drop (s.length - k) = needle.take k := by
  have hsuffix := suffix_iff_eq_drop.mp h.suffix
  rw [length_take_of_le h.lt.le] at hsuffix
  exact hsuffix.symm

/-- The delimiter does not start in front of what is held back, however the text goes on. -/
theorem Held.not_prefix (hnone : find needle s = none) (back : Str) {j : Nat} (hj : j < s.length - k) :
    ¬ needle <+: (s ++ back).drop j := by
  intro hprefix
  rw [drop_append_of_le_length (by omega)] at hprefix
  by_cases hlen : needle.length ≤ (s.drop j).length
  · exact not_prefix_of_find_eq_none hnone j (by omega) (prefix_of_prefix_length_le hprefix (prefix_append _ _) hlen)
  · -- otherwise the text ends inside the delimiter, with more of it than is held back
    have hend : s.drop j <+: needle :=
      prefix_of_prefix_length_le (prefix_append _ _) hprefix (by omega)
    have htake : needle.take (s.drop j).length = s.drop j := (prefix_iff_eq_take.mp hend).symm
    have hle := h.max (s.drop j).length (by omega) (by rw [htake]; exact drop_suffix j s)
    rw [length_drop] at hle
    omega

/-- The search goes on behind what is settled. -/
theorem Held.find_append (hnone : find needle s = none) (back : Str) : find needle (s ++ back) =
      (find needle (s.drop (s.length - k) ++ back)).map (· + (s.length - k)) := by
  have hsplit : s ++ back = s.take (s.length - k) ++ (s.drop (s.length - k) ++ back) := by
    rw [← append_assoc, take_append_drop]
  have hlen : (s.take (s.length - k)).length = s.length - k := by
    rw [length_take]
    omega
  have hnot : ∀ j < (s.take (s.length - k)).length,
      ¬ needle <+: (s.take (s.length - k) ++ (s.drop (s.length - k) ++ back)).drop j := by
    intro j hj
    rw [← hsplit]
    exact h.not_prefix hnone back (by omega)
  rw [hsplit, find_append_of_forall_not _ _ hnot, hlen]

/-- What is held back of the longer text is held back of what was not settled. -/
theorem Held.append {k' : Nat} {back : Str} (h' : Held needle (s.drop (s.length - k) ++ back) k') :
    Held needle (s ++ back) k' := by
  have hsuffix : s.drop (s.length - k) ++ back <:+ s ++ back :=
    ⟨s.take (s.length - k), by rw [← append_assoc, take_append_drop]⟩
  refine ⟨h'.lt, h'.suffix.trans hsuffix, fun j hj hend => ?_⟩
  apply h'.max j hj
  refine suffix_of_suffix_length_le hend hsuffix ?_
  rw [length_take_of_le hj.le, length_append, h.drop_eq, length_take_of_le h.lt.le]
  by_contra hlong
  -- a longer end reaches into the settled part, which then ends with more of the delimiter
  have hcut : needle.take (j - back.length) <:+ s := by
    obtain ⟨front, hfront⟩ := hend
    have hlen := congrArg length hfront
    rw [length_append, length_append, length_take_of_le hj.le] at hlen
    refine ⟨front, ?_⟩
    have htake := congrArg (take s.length) hfront
    rw [take_left, take_append, take_of_length_le (by omega), take_take] at htake
    rw [← htake]
    congr 2
    omega
  have hle := h.max (j - back.length) (by omega) hcut
  omega

end

end Str
