import Dcode.Context.Compact
import Dcode.Truncation.Proofs.TruncateProofs

/-!
# The limit of a compacted history

The newest messages are kept as long as they fit, and one more is truncated to what is left. What truncation puts in the
place of the middle counts as well, so that the limit is exceeded exactly then.
-/

namespace Dcode.Context

open Protocol Truncation List Option
open Str (byteLen)

/-! ## Truncated texts -/

/-- A truncated text has more tokens than it was to have. -/
theorem exists_truncateText {text : Str} {tokens : Nat} (hpos : 0 < tokens) (hlong : tokens < approxTokenCount text) :
    ∃ truncated, truncateText text (.tokens tokens) = some truncated ∧ tokens < approxTokenCount truncated := by
  simp only [approxTokenCount, approxBytesPerToken] at hlong ⊢
  have hbytes : tokens * 4 < byteLen text := by omega
  obtain ⟨left, middle, right, htext, hmiddle, hsplit, ⟨-, hleft⟩, -, hright⟩ := exists_split hbytes
  -- one more character does not fit on either side
  have hleftLen : tokens * 4 / 2 < byteLen left + 4 := by
    obtain ⟨c, rest, rfl⟩ := exists_cons_of_ne_nil hmiddle
    by_contra hfits
    have hc := c.utf8Size_le_four
    have hbytes' : byteLen (left ++ [c]) ≤ tokens * 4 / 2 := by
      rw [byteLen_append, byteLen_cons]
      change _ + (_ + 0) ≤ _
      omega
    have hlength := (hleft (left ++ [c]) ⟨rest ++ right, by simp [htext]⟩ hbytes').length_le
    simp at hlength
  have hrightLen : tokens * 4 - tokens * 4 / 2 < byteLen right + 4 := by
    obtain ⟨rest, c, rfl⟩ := (eq_nil_or_concat' middle).resolve_left hmiddle
    by_contra hfits
    have hc := c.utf8Size_le_four
    have hlength := (hright (c :: right) ⟨left ++ rest, by simp [htext]⟩ (by rw [byteLen_cons]; omega)).length_le
    simp at hlength
  have hne : ¬ text.isEmpty := by
    intro hempty
    rw [isEmpty_iff.mp hempty] at hbytes
    exact Nat.not_lt_zero _ hbytes
  have hfits : ¬ (tokens > 0 ∧ byteLen text ≤ approxBytesForTokens tokens) := fun h => absurd h.2 (not_le.mpr hbytes)
  have htruncated := truncateWithByteEstimate_of_split true (Nat.mul_pos hpos four_pos).ne' hbytes hsplit
  refine ⟨left ++ formatTruncationMarker true (removedUnits true (byteLen text - tokens * 4) middle.length) ++ right, ?_, ?_⟩
  · rw [truncateText, truncateMiddleWithTokenBudget, if_neg hne, if_neg hfits]
    exact congrArg (Option.map Prod.fst) (congrArg (Option.bind · _) htruncated)
  · have hmark : byteLen " tokens truncated…".toList = 20 := by decide
    rw [byteLen_append, byteLen_append, formatTruncationMarker, if_pos rfl, byteLen_append, hmark]
    omega

/-! ## The selection -/

def tokenCount (messages : List CompactedUserMessage) : Nat :=
  (messages.map fun message => approxTokenCount message.message).sum

theorem tokenCount_append (messages messages' : List CompactedUserMessage) :
    tokenCount (messages ++ messages') = tokenCount messages + tokenCount messages' := by
  rw [tokenCount, map_append, sum_append]
  rfl

/-- The limit does not fall inside a message. -/
def FitsExactly (messages : List CompactedUserMessage) (limit : Nat) : Prop :=
  ∀ message newer, message :: newer <:+ messages → tokenCount newer < limit → tokenCount (message :: newer) ≤ limit

theorem fitsExactly_concat {older : List CompactedUserMessage} {last : CompactedUserMessage} {limit : Nat}
    (hfits : tokenCount [last] ≤ limit) :
    FitsExactly (older ++ [last]) limit ↔ FitsExactly older (limit - tokenCount [last]) := by
  constructor
  · intro h message newer hsuffix hlt
    have hle := h message (newer ++ [last]) (suffix_concat_iff.mpr (.inr ⟨_, rfl, hsuffix⟩))
    rw [← cons_append, tokenCount_append, tokenCount_append] at hle
    omega
  · intro h message newer hsuffix hlt
    obtain ⟨before, heq, hbefore⟩ := (suffix_concat_iff.mp hsuffix).resolve_left (cons_ne_nil _ _)
    cases before with
    | nil =>
      rw [heq]
      exact hfits
    | cons first before =>
      rw [cons_append] at heq
      obtain ⟨rfl, rfl⟩ := cons.inj heq
      have hle := h message before hbefore
      rw [tokenCount_append] at hlt
      rw [← cons_append, tokenCount_append]
      omega

/-- The last messages are kept, except that the oldest of them may be truncated. -/
def KeptFrom (messages kept : List CompactedUserMessage) : Prop :=
  kept <:+ messages ∨ ∃ message newer tokens text, message :: newer <:+ messages ∧
    truncateText message.message (.tokens tokens) = some text ∧ kept = { message with message := text } :: newer

theorem KeptFrom.concat {messages kept : List CompactedUserMessage} (h : KeptFrom messages kept)
    (last : CompactedUserMessage) : KeptFrom (messages ++ [last]) (kept ++ [last]) := by
  rcases h with hsuffix | ⟨message, newer, tokens, text, hsuffix, htruncate, rfl⟩
  · exact .inl (suffix_concat_iff.mpr (.inr ⟨_, rfl, hsuffix⟩))
  · exact .inr ⟨message, newer ++ [last], tokens, text, suffix_concat_iff.mpr (.inr ⟨_, rfl, hsuffix⟩), htruncate, rfl⟩

theorem selectWithLimit_spec (messages : List CompactedUserMessage) (limit : Nat) :
    ∃ kept, selectWithLimit messages.reverse limit = some kept.reverse ∧ KeptFrom messages kept ∧
      (tokenCount kept ≤ limit ↔ FitsExactly messages limit) := by
  induction messages using List.reverseRecOn generalizing limit with
  | nil => exact ⟨[], rfl, .inl suffix_rfl, iff_of_true (Nat.zero_le _) fun _ _ h => by cases suffix_nil.mp h⟩
  | append_singleton older last ih =>
    rw [reverse_concat, selectWithLimit]
    by_cases hzero : limit = 0
    · exact ⟨[], if_pos hzero, .inl nil_suffix, iff_of_true (Nat.zero_le _) fun _ _ _ hlt => by omega⟩
    · rw [if_neg hzero]
      dsimp only
      split
      next hfits =>
        obtain ⟨kept, hselect, hkept, hiff⟩ := ih (limit - approxTokenCount last.message)
        refine ⟨kept ++ [last], by rw [hselect, reverse_concat]; rfl, hkept.concat last, ?_⟩
        rw [fitsExactly_concat hfits, tokenCount_append]
        exact (Nat.le_sub_iff_add_le hfits).symm.trans hiff
      next hlong =>
        obtain ⟨text, htruncate, hover⟩ := exists_truncateText (Nat.pos_of_ne_zero hzero) (not_le.mp hlong)
        have hlast : last :: [] <:+ older ++ [last] := suffix_append older [last]
        refine ⟨[{ last with message := text }], by rw [htruncate]; rfl,
          .inr ⟨last, [], limit, text, hlast, htruncate, rfl⟩,
          iff_of_false (not_le.mpr hover) fun hexact => hlong ?_⟩
        exact hexact last [] hlast (Nat.pos_of_ne_zero hzero)

theorem buildCompactedHistoryWithLimit_max (initialContext : List ResponseItem) (userMessages : List CompactedUserMessage)
    (summaryText : Str) :
    buildCompactedHistoryWithLimit initialContext userMessages summaryText compactUserMessageMaxTokens =
      some (buildCompactedHistory initialContext userMessages summaryText) := by
  obtain ⟨kept, hselect, -⟩ := selectWithLimit_spec userMessages compactUserMessageMaxTokens
  rw [buildCompactedHistory, buildCompactedHistoryWithLimit, hselect]
  rfl

/-- The history is the initial context, the last messages with at most the oldest of them cut, and a summary. The messages
have no more tokens than the limit exactly if it does not fall inside one of them. -/
theorem buildCompactedHistoryWithLimit_spec (initialContext : List ResponseItem) (userMessages : List CompactedUserMessage)
    (summaryText : Str) (maxTokens : Nat) :
    ∃ kept, KeptFrom userMessages kept ∧
      buildCompactedHistoryWithLimit initialContext userMessages summaryText maxTokens =
        some (initialContext ++ kept.map (fun message => userText message.message message.metadata) ++
          [userText (if summaryText.isEmpty then "(no summary available)".toList else summaryText) none]) ∧
      (tokenCount kept ≤ maxTokens ↔ FitsExactly userMessages maxTokens) := by
  obtain ⟨kept, hselect, hkept, hiff⟩ := selectWithLimit_spec userMessages maxTokens
  refine ⟨kept, hkept, ?_, hiff⟩
  rw [buildCompactedHistoryWithLimit, hselect, bind_eq_bind, bind_some, reverse_reverse]
  rfl

/-- A message that is cut to one token is kept with seven. -/
theorem tokenCount_cutMessage : buildCompactedHistoryWithLimit [] [⟨"0123456789".toList, none⟩] ['s'] 1 =
      some [userText "01…2 tokens truncated…89".toList none, userText ['s'] none] ∧
    tokenCount [⟨"01…2 tokens truncated…89".toList, none⟩] = 7 := by
  decide

end Dcode.Context
