import Dcode.Truncation.Truncate

/-!
# What is left of a text

The loop over the characters finds three parts: those that end within the budget of the beginning, those that start within the
budget of the end, and between them the ones that are counted.
-/

namespace Dcode.Truncation

open List Nat SplitScan
open Str (byteLen)

theorem byteLen_cons (c : Char) (s : Str) : byteLen (c :: s) = c.utf8Size + byteLen s := by
  rw [byteLen, map_cons, sum_cons, byteLen]

theorem byteLen_append (s t : Str) : byteLen (s ++ t) = byteLen s + byteLen t := by
  rw [byteLen, map_append, sum_append_nat, byteLen, byteLen]

theorem byteLen_reverse (s : Str) : byteLen s.reverse = byteLen s := by
  rw [byteLen, map_reverse, sum_reverse, byteLen]

theorem sliceAt_append (before after : Str) : sliceAt (before ++ after) (byteLen before) = some (before, after) := by
  induction before with
  | nil => cases after <;> rfl
  | cons c before ih =>
    have hpos := c.utf8Size_pos
    obtain ⟨n, hn⟩ : ∃ n, c.utf8Size + byteLen before = n + 1 := ⟨_, (Nat.succ_pred_eq_of_pos (by omega)).symm⟩
    rw [cons_append, byteLen_cons, hn, sliceAt, ← hn, if_pos (Nat.le_add_right _ _), Nat.add_sub_cancel_left, ih]
    · rfl
    · omega

/-! ## The three parts -/

variable {beginningBytes tailStartTarget : Nat}

theorem run_beginning (left s : Str) (idx : Nat) (st : SplitScan) (hst : st.prefixEnd = idx)
    (hle : idx + byteLen left ≤ beginningBytes) :
    run beginningBytes tailStartTarget idx (left ++ s) st =
      run beginningBytes tailStartTarget (idx + byteLen left) s { st with prefixEnd := idx + byteLen left } := by
  induction left generalizing idx st with
  | nil => rw [← hst]; rfl
  | cons c left ih =>
    rw [byteLen_cons] at hle ⊢
    rw [cons_append, run, step, if_pos (by omega), ih (idx + c.utf8Size) _ rfl (by omega), add_assoc]

/-- The next character ends behind the beginning. -/
def PastBeginning (beginningBytes idx : Nat) (s : Str) : Prop := ∀ c ∈ s.head?, beginningBytes < idx + c.utf8Size

theorem PastBeginning.next {idx : Nat} {c : Char} {s t : Str} (h : PastBeginning beginningBytes idx (c :: s)) :
    PastBeginning beginningBytes (idx + c.utf8Size) t := by
  intro d hd
  have hlt := h c rfl
  omega

theorem run_middle (middle s : Str) (idx : Nat) (st : SplitScan) (hpast : PastBeginning beginningBytes idx middle)
    (hstart : ∀ front c back, middle = front ++ c :: back → idx + byteLen front < tailStartTarget) :
    run beginningBytes tailStartTarget idx (middle ++ s) st =
      run beginningBytes tailStartTarget (idx + byteLen middle) s
        { st with removedChars := st.removedChars + middle.length } := by
  induction middle generalizing idx st with
  | nil => rfl
  | cons c middle ih =>
    have hbefore : idx < tailStartTarget := hstart [] c middle rfl
    have hc := hpast c rfl
    rw [cons_append, run, step, if_neg (by omega), if_neg (by omega), ih _ _ hpast.next, byteLen_cons, add_assoc]
    · simp [add_assoc, add_comm 1]
    · intro front d back hmiddle
      have h := hstart (c :: front) d back (by rw [hmiddle, cons_append])
      rwa [byteLen_cons, ← add_assoc] at h

theorem run_end (right : Str) (idx : Nat) (st : SplitScan) (hpast : PastBeginning beginningBytes idx right)
    (hidx : tailStartTarget ≤ idx) :
    (run beginningBytes tailStartTarget idx right st).prefixEnd = st.prefixEnd ∧
    (run beginningBytes tailStartTarget idx right st).removedChars = st.removedChars ∧
    (run beginningBytes tailStartTarget idx right st).suffixStart =
      if st.suffixStarted ∨ right = [] then st.suffixStart else idx := by
  induction right generalizing idx st with
  | nil => simp [run]
  | cons c right ih =>
    have hc := hpast c rfl
    rw [run, step, if_neg (by omega), if_pos hidx]
    obtain ⟨hfront, hremoved, hsuffix⟩ := ih (idx + c.utf8Size)
      (if !st.suffixStarted then { st with suffixStart := idx, suffixStarted := true } else st) hpast.next (by omega)
    rw [hfront, hremoved, hsuffix]
    cases hstarted : st.suffixStarted <;> simp [hstarted]

theorem splitString_append {left middle right : Str} {endBytes : Nat} (hne : middle ≠ []) (hleft : byteLen left ≤ beginningBytes)
    (hright : byteLen right ≤ endBytes) (hpast : PastBeginning beginningBytes (byteLen left) middle)
    (hstart : ∀ front c back, middle = front ++ c :: back →
      byteLen left + byteLen front < byteLen (left ++ middle ++ right) - endBytes) :
    splitString (left ++ middle ++ right) beginningBytes endBytes = some (middle.length, left, right) := by
  obtain ⟨c, rest, rfl⟩ := exists_cons_of_ne_nil hne
  have hle : ¬ byteLen (left ++ c :: rest) < byteLen left := by
    rw [byteLen_append]
    omega
  have hslice := sliceAt_append left (c :: rest ++ right)
  rw [← append_assoc] at hslice
  have hend : PastBeginning beginningBytes (byteLen (left ++ c :: rest)) right := by
    intro d _
    have hc := hpast c rfl
    rw [byteLen_append, byteLen_cons]
    omega
  unfold splitString
  rw [if_neg (by simp)]
  generalize hlen : byteLen (left ++ c :: rest ++ right) = len at *
  rw [byteLen_append] at hlen
  obtain ⟨st, hscan, hfront, hremoved, hsuffix⟩ : ∃ st,
      run beginningBytes (len - endBytes) 0 (left ++ c :: rest ++ right) ⟨0, len, 0, false⟩ = st ∧
      st.prefixEnd = byteLen left ∧ st.removedChars = (c :: rest).length ∧ st.suffixStart = byteLen (left ++ c :: rest) := by
    rw [append_assoc, run_beginning left _ 0 _ rfl (by omega), zero_add, run_middle _ right _ _ hpast hstart,
      ← byteLen_append, zero_add]
    obtain ⟨hfront, hremoved, hsuffix⟩ := run_end right _ ⟨byteLen left, len, (c :: rest).length, false⟩ hend
      (show len - endBytes ≤ _ by omega)
    refine ⟨_, rfl, hfront, hremoved, hsuffix.trans ?_⟩
    cases right with
    | nil => exact hlen.symm
    | cons d right => simp
  simp only [hscan, hfront, hremoved, hsuffix, if_neg hle, hslice, sliceAt_append]
  rfl

/-- The longest part in front that fits into a number of bytes. -/
theorem exists_longest (s : Str) (n : Nat) :
    ∃ front rest, s = front ++ rest ∧ byteLen front ≤ n ∧ PastBeginning n (byteLen front) rest := by
  induction s generalizing n with
  | nil => exact ⟨[], [], rfl, zero_le n, nofun⟩
  | cons c s ih =>
    rcases lt_or_ge n c.utf8Size with hlt | hge
    · exact ⟨[], c :: s, rfl, zero_le n, by simpa [PastBeginning, byteLen] using hlt⟩
    · obtain ⟨front, rest, rfl, hle, hpast⟩ := ih (n - c.utf8Size)
      refine ⟨c :: front, rest, rfl, ?_, ?_⟩
      · rw [byteLen_cons]
        omega
      · intro d hd
        have h := hpast d hd
        rw [byteLen_cons]
        omega

theorem byteLen_le_of_append {s t u : Str} (h : s ++ t = u) : byteLen s ≤ byteLen u := by
  rw [← h, byteLen_append]
  exact le_add_right _ _

/-- The longest part in front is longest among all that fit. -/
theorem isPrefix_of_longest {front rest s l : Str} {n : Nat} (hs : s = front ++ rest)
    (hpast : PastBeginning n (byteLen front) rest) (hl : l <+: s) (hle : byteLen l ≤ n) : l <+: front := by
  subst hs
  rcases prefix_or_prefix_of_prefix hl (prefix_append front rest) with h | ⟨more, rfl⟩
  · exact h
  · cases more with
    | nil => rw [append_nil]
    | cons c more =>
      obtain ⟨rest', hrest⟩ := (prefix_append_right_inj front).mp hl
      have hc := hpast c (by rw [← hrest]; rfl)
      rw [byteLen_append, byteLen_cons] at hle
      omega

/-- A text that is too long is split into the longest beginning and the longest end that fit, and what is between them. -/
theorem exists_split {s : Str} {maxBytes : Nat} (hlong : maxBytes < byteLen s) :
    ∃ left middle right, s = left ++ middle ++ right ∧ middle ≠ [] ∧
      splitString s (maxBytes / 2) (maxBytes - maxBytes / 2) = some (middle.length, left, right) ∧
      (byteLen left ≤ maxBytes / 2 ∧ ∀ l, l <+: s → byteLen l ≤ maxBytes / 2 → l <+: left) ∧
      byteLen right ≤ maxBytes - maxBytes / 2 ∧
      ∀ r, r <:+ s → byteLen r ≤ maxBytes - maxBytes / 2 → r <:+ right := by
  obtain ⟨left, rest, hleft, hleftLe, hleftPast⟩ := exists_longest s (maxBytes / 2)
  obtain ⟨back, front, hback, hbackLe, hbackPast⟩ := exists_longest s.reverse (maxBytes - maxBytes / 2)
  have hright : s = front.reverse ++ back.reverse := by rw [← reverse_append, ← hback, reverse_reverse]
  -- the two parts do not overlap, and do not touch
  obtain ⟨middle, hmiddle, hne⟩ : ∃ middle, front.reverse = left ++ middle ∧ middle ≠ [] := by
    have hlength : byteLen front.reverse + byteLen back = byteLen s := by
      rw [← byteLen_reverse back, ← byteLen_append, ← hright]
    rcases prefix_or_prefix_of_prefix ⟨rest, hleft.symm⟩ ⟨back.reverse, hright.symm⟩ with ⟨middle, h⟩ | ⟨more, h⟩
    · refine ⟨middle, h.symm, fun hnil => ?_⟩
      rw [hnil, append_nil] at h
      rw [← h] at hlength
      omega
    · have hle := byteLen_le_of_append h
      omega
  rw [hmiddle] at hright
  have hrest : rest = middle ++ back.reverse := append_cancel_left (hleft.symm.trans (hright.trans (append_assoc _ _ _)))
  have hlength : byteLen s = byteLen left + byteLen middle + byteLen back := by
    rw [hright, byteLen_append, byteLen_append, byteLen_reverse]
  have hpast : PastBeginning (maxBytes / 2) (byteLen left) middle := by
    cases middle with
    | nil => exact absurd rfl hne
    | cons c middle => rwa [hrest] at hleftPast
  have hstart : ∀ before c after, middle = before ++ c :: after →
      byteLen left + byteLen before < byteLen s - (maxBytes - maxBytes / 2) := by
    intro before c after hsplit
    obtain ⟨inner, last, hlast⟩ := (eq_nil_or_concat' (c :: after)).resolve_left (cons_ne_nil _ _)
    rw [hlast] at hsplit
    have hfront : front.head? = some last := by
      rw [← reverse_reverse front, hmiddle, hsplit, head?_reverse]
      simp
    have hlt := hbackPast last hfront
    rw [hlength, hsplit, byteLen_append, byteLen_append, byteLen_cons]
    omega
  have hsplit := splitString_append hne hleftLe (byteLen_reverse back ▸ hbackLe) hpast (hright ▸ hstart)
  refine ⟨left, middle, back.reverse, hright, hne, hright ▸ hsplit, ⟨hleftLe, fun l => isPrefix_of_longest hleft hleftPast⟩,
    byteLen_reverse back ▸ hbackLe, ?_⟩
  intro r hr hle
  rw [← reverse_prefix, reverse_reverse]
  have hreverse := reverse_prefix.mpr hr
  exact isPrefix_of_longest hback hbackPast hreverse (by rwa [byteLen_reverse])

theorem truncateWithByteEstimate_of_split {s left right : Str} {maxBytes removed : Nat} (useTokens : Bool)
    (hpos : maxBytes ≠ 0) (hlong : maxBytes < byteLen s)
    (hsplit : splitString s (maxBytes / 2) (maxBytes - maxBytes / 2) = some (removed, left, right)) :
    truncateWithByteEstimate s maxBytes useTokens =
      some (left ++ formatTruncationMarker useTokens (removedUnits useTokens (byteLen s - maxBytes) removed) ++ right) := by
  have hne : ¬ s.isEmpty := by
    intro h
    rw [isEmpty_iff.mp h] at hlong
    exact not_lt_zero _ hlong
  unfold truncateWithByteEstimate
  rw [if_neg hne, if_neg hpos, if_neg (not_le.mpr hlong)]
  simp only [splitBudget, hsplit]
  rfl

/-- A text that is too long is cut to the longest beginning and the longest end that fit, with the number of the characters
between them. -/
theorem truncateMiddleChars_spec (s : Str) (maxBytes : Nat) (hpos : 0 < maxBytes) (hlong : maxBytes < byteLen s) :
    ∃ left middle right, s = left ++ middle ++ right ∧ middle ≠ [] ∧
      truncateMiddleChars s maxBytes = some (left ++ formatTruncationMarker false middle.length ++ right) ∧
      (byteLen left ≤ maxBytes / 2 ∧ ∀ l, l <+: s → byteLen l ≤ maxBytes / 2 → l <+: left) ∧
      byteLen right ≤ maxBytes - maxBytes / 2 ∧
      ∀ r, r <:+ s → byteLen r ≤ maxBytes - maxBytes / 2 → r <:+ right := by
  obtain ⟨left, middle, right, hs, hne, hsplit, hlongest⟩ := exists_split hlong
  exact ⟨left, middle, right, hs, hne, truncateWithByteEstimate_of_split false hpos.ne' hlong hsplit, hlongest⟩

/-- Both cuts fall into a character of three bytes, which is taken out whole. -/
theorem truncateMiddleChars_wide :
    (∃ left middle right, "a日本語b".toList = left ++ middle ++ right ∧ truncateMiddleChars "a日本語b".toList 6 =
      some (left ++ formatTruncationMarker false middle.length ++ right)) ∧
    truncateMiddleChars "a日本語b".toList 6 = some ("a".toList ++ formatTruncationMarker false 3 ++ "b".toList) := by
  obtain ⟨left, middle, right, hs, -, h, -⟩ := truncateMiddleChars_spec "a日本語b".toList 6 (by decide) (by decide)
  exact ⟨⟨left, middle, right, hs, h⟩, by decide +kernel⟩

theorem exists_truncateWithByteEstimate {s : Str} (hs : s ≠ []) (maxBytes : Nat) (useTokens : Bool) :
    ∃ text, truncateWithByteEstimate s maxBytes useTokens = some text ∧ text ≠ [] := by
  have hempty : ¬ s.isEmpty := fun h => hs (isEmpty_iff.mp h)
  by_cases hzero : maxBytes = 0
  · rw [truncateWithByteEstimate, if_neg hempty, if_pos hzero]
    exact ⟨_, rfl, by simp [formatTruncationMarker]⟩
  · rcases lt_or_ge maxBytes (byteLen s) with hlong | hle
    · obtain ⟨left, middle, right, _, _, hsplit, _⟩ := exists_split hlong
      exact ⟨_, truncateWithByteEstimate_of_split useTokens hzero hlong hsplit, by simp [formatTruncationMarker]⟩
    · rw [truncateWithByteEstimate, if_neg hempty, if_neg hzero, if_pos hle]
      exact ⟨s, rfl, hs⟩

end Dcode.Truncation
