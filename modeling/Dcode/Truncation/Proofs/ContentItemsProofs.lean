import Dcode.Truncation.ContentItems
import Dcode.Truncation.Proofs.TruncateProofs

/-!
# Which content items are kept

Up to the text that is cut only audio is left out. Behind it there is no text, and of audio what costs nothing.
-/

namespace Dcode.Truncation

open Protocol List Option ItemsScan
open Str (byteLen)

def isText : FunctionCallOutputContentItem → Bool
  | .inputText _ => true
  | _ => false

def isAudio : FunctionCallOutputContentItem → Bool
  | .inputAudio _ => true
  | _ => false

variable (policy : TruncationPolicy) (estimateAudioTokenCount : Str → Nat)

def itemCost : FunctionCallOutputContentItem → Nat
  | .inputText text => policy.textCost text
  | .inputAudio audioUrl => policy.audioCost (estimateAudioTokenCount audioUrl)
  | _ => 0

/-- An item that is kept when nothing is left of the budget. -/
def isFree (item : FunctionCallOutputContentItem) : Bool :=
  !isText item && itemCost policy estimateAudioTokenCount item = 0

/-- The items in front of a cut and those of them that are kept, the text at the cut with what is left of it, and the items
behind. -/
structure ItemsCut where
  front : List FunctionCallOutputContentItem
  keptFront : List FunctionCallOutputContentItem
  cut : Option (Str × Str)
  back : List FunctionCallOutputContentItem

namespace ItemsCut

def items (parts : ItemsCut) : List FunctionCallOutputContentItem :=
  parts.front ++ (parts.cut.map fun cut => .inputText cut.1).toList ++ parts.back

def kept (parts : ItemsCut) : List FunctionCallOutputContentItem :=
  parts.keptFront ++ (parts.cut.map fun cut => .inputText cut.2).toList ++
    parts.back.filter (isFree policy estimateAudioTokenCount)

def spent (parts : ItemsCut) : Nat := (parts.keptFront.map (itemCost policy estimateAudioTokenCount)).sum

/-- Only audio is missing in front of the cut, what is kept there is within the budget, and the text at the cut is more than
what is left of it. -/
structure Valid (parts : ItemsCut) (budget : Nat) : Prop where
  sublist : parts.keptFront <+ parts.front
  onlyAudio : parts.keptFront.filter (!isAudio ·) = parts.front.filter (!isAudio ·)
  spent_le : parts.spent policy estimateAudioTokenCount ≤ budget
  snippet : ∀ text snippet, parts.cut = some (text, snippet) →
    budget < parts.spent policy estimateAudioTokenCount + policy.textCost text ∧
    truncateText text (policy.withBudget (budget - parts.spent policy estimateAudioTokenCount)) = some snippet

end ItemsCut

theorem exists_snippet {text : Str} {budget : Nat} (hcost : budget < policy.textCost text) :
    ∃ snippet, truncateText text (policy.withBudget budget) = some snippet ∧ snippet ≠ [] := by
  have hne : text ≠ [] := by
    rintro rfl
    cases policy <;> exact Nat.not_lt_zero _ hcost
  cases policy with
  | bytes limit => exact exists_truncateWithByteEstimate hne budget false
  | tokens limit =>
    obtain ⟨snippet, h, hsnippet⟩ := exists_truncateWithByteEstimate hne (approxBytesForTokens budget) true
    have hlong : ¬ (budget > 0 ∧ byteLen text ≤ approxBytesForTokens budget) := by
      simp only [TruncationPolicy.textCost, approxTokenCount, approxBytesForTokens, approxBytesPerToken] at hcost ⊢
      omega
    refine ⟨snippet, ?_, hsnippet⟩
    simp only [truncateText, TruncationPolicy.withBudget, truncateMiddleWithTokenBudget]
    rw [if_neg fun hempty => hne (isEmpty_iff.mp hempty), if_neg hlong, h]
    rfl

/-- When nothing is left of the budget. -/
theorem scan_back (items : List FunctionCallOutputContentItem) (st : ItemsScan) (hzero : st.remainingBudget = 0) :
    items.foldlM (step policy estimateAudioTokenCount) st = some
      { st with
        out := st.out ++ items.filter (isFree policy estimateAudioTokenCount)
        omittedTextItems := st.omittedTextItems + items.countP isText
        omittedAudioItems := st.omittedAudioItems +
          items.countP fun item => isAudio item && !isFree policy estimateAudioTokenCount item } := by
  induction items generalizing st with
  | nil => simp
  | cons item items ih =>
    rw [foldlM_cons, bind_eq_bind]
    cases item with
    | inputText text =>
      rw [step, if_pos hzero, bind_some, ih]
      · simp [isFree, isText, isAudio, countP_cons, Nat.add_assoc, Nat.add_comm 1]
      · exact hzero
    | inputImage imageUrl detail | encryptedContent content =>
      rw [step, bind_some, ih]
      · simp [isFree, isText, itemCost]
      · exact hzero
    | inputAudio audioUrl =>
      rw [step, hzero]
      by_cases hfree : policy.audioCost (estimateAudioTokenCount audioUrl) = 0
      · rw [if_pos hfree.le, bind_some, ih]
        · simp [isFree, isText, itemCost, hfree]
        · rw [Nat.zero_sub]
      · rw [if_neg (by omega), bind_some, ih]
        · simp [isFree, isText, isAudio, itemCost, hfree, Nat.add_assoc, Nat.add_comm 1]
        · rfl

/-- An item that is kept in front of the cut, at its cost. -/
theorem ItemsCut.Valid.cons {parts : ItemsCut} {budget : Nat} {item : FunctionCallOutputContentItem}
    (hcost : itemCost policy estimateAudioTokenCount item ≤ budget)
    (h : parts.Valid policy estimateAudioTokenCount (budget - itemCost policy estimateAudioTokenCount item)) :
    Valid policy estimateAudioTokenCount
      { parts with front := item :: parts.front, keptFront := item :: parts.keptFront } budget := by
  have hspent := h.spent_le
  have hsum : spent policy estimateAudioTokenCount
      { parts with front := item :: parts.front, keptFront := item :: parts.keptFront } =
      itemCost policy estimateAudioTokenCount item + parts.spent policy estimateAudioTokenCount := sum_cons
  refine ⟨h.sublist.cons_cons item, ?_, by omega, fun text snippet hcut => ?_⟩
  · simp [filter_cons, h.onlyAudio]
  · obtain ⟨hlt, hsnippet⟩ := h.snippet text snippet hcut
    rw [hsum, ← Nat.sub_sub]
    exact ⟨by omega, hsnippet⟩

/-- The loop over the items from a state on: the output is that of some cut, and the omitted items are counted. -/
def Scans (items : List FunctionCallOutputContentItem) (st : ItemsScan) : Prop :=
  ∃ parts : ItemsCut, parts.items = items ∧ parts.Valid policy estimateAudioTokenCount st.remainingBudget ∧
    ∃ omittedAudio remainingBudget,
      omittedAudio + (parts.kept policy estimateAudioTokenCount).countP isAudio = items.countP isAudio ∧
      items.foldlM (ItemsScan.step policy estimateAudioTokenCount) st = some
        { out := st.out ++ parts.kept policy estimateAudioTokenCount
          remainingBudget := remainingBudget
          omittedTextItems := st.omittedTextItems + parts.back.countP isText
          omittedAudioItems := st.omittedAudioItems + omittedAudio }

variable {policy estimateAudioTokenCount} {item : FunctionCallOutputContentItem} {items : List FunctionCallOutputContentItem}
  {st : ItemsScan}

theorem countP_isFree (items : List FunctionCallOutputContentItem) :
    (items.countP fun item => isAudio item && !isFree policy estimateAudioTokenCount item) +
      (items.filter (isFree policy estimateAudioTokenCount)).countP isAudio = items.countP isAudio := by
  rw [countP_eq_countP_filter_add items isAudio (isFree policy estimateAudioTokenCount), Nat.add_comm, countP_filter,
    countP_filter (p := isAudio)]

theorem scans_kept (hstep : step policy estimateAudioTokenCount st item = some
      { st with
        out := st.out ++ [item]
        remainingBudget := st.remainingBudget - itemCost policy estimateAudioTokenCount item })
    (hcost : itemCost policy estimateAudioTokenCount item ≤ st.remainingBudget)
    (h : ∀ st, Scans policy estimateAudioTokenCount items st) : Scans policy estimateAudioTokenCount (item :: items) st := by
  obtain ⟨parts, hitems, hvalid, omittedAudio, remainingBudget, haudio, hfold⟩ := h
    { st with out := st.out ++ [item], remainingBudget := st.remainingBudget - itemCost policy estimateAudioTokenCount item }
  refine ⟨_, ?_, hvalid.cons policy estimateAudioTokenCount hcost, omittedAudio, remainingBudget, ?_, ?_⟩
  · rw [← hitems]
    rfl
  · rw [countP_cons, ← haudio]
    simp only [ItemsCut.kept, cons_append, countP_cons]
    omega
  · rw [foldlM_cons, hstep, bind_eq_bind, bind_some, hfold]
    simp [ItemsCut.kept]

theorem scans (items : List FunctionCallOutputContentItem) (st : ItemsScan) : Scans policy estimateAudioTokenCount items st := by
  induction items generalizing st with
  | nil => exact ⟨⟨[], [], none, []⟩, rfl, ⟨.slnil, rfl, Nat.zero_le _, nofun⟩, 0, st.remainingBudget, rfl,
      by simp [ItemsCut.kept]⟩
  | cons item items ih =>
    by_cases hzero : st.remainingBudget = 0
    · exact ⟨⟨[], [], none, item :: items⟩, rfl, ⟨.slnil, rfl, Nat.zero_le _, nofun⟩, _, _, countP_isFree _,
        scan_back policy estimateAudioTokenCount _ st hzero⟩
    cases item with
    | inputImage imageUrl detail | encryptedContent content => exact scans_kept rfl (Nat.zero_le _) ih
    | inputText text =>
      rcases Nat.lt_or_ge st.remainingBudget (policy.textCost text) with hlt | hle
      · obtain ⟨snippet, hsnippet, hne⟩ := exists_snippet policy hlt
        have hstep : step policy estimateAudioTokenCount st (.inputText text) =
            some { st with out := st.out ++ [.inputText snippet], remainingBudget := 0 } := by
          simp [step, hzero, Nat.not_le.mpr hlt, hsnippet, hne]
        refine ⟨⟨[], [], some (text, snippet), items⟩, rfl, ⟨.slnil, rfl, Nat.zero_le _, ?_⟩, _, 0, countP_isFree _, ?_⟩
        · rintro _ _ ⟨⟩
          exact ⟨(Nat.zero_add _).symm ▸ hlt, hsnippet⟩
        · rw [foldlM_cons, hstep, bind_eq_bind, bind_some, scan_back policy estimateAudioTokenCount _ _ rfl]
          simp [ItemsCut.kept]
      · exact scans_kept (by rw [step, if_neg hzero]; exact if_pos hle) hle ih
    | inputAudio audioUrl =>
      rcases Nat.lt_or_ge st.remainingBudget (policy.audioCost (estimateAudioTokenCount audioUrl)) with hlt | hle
      · obtain ⟨parts, hitems, hvalid, omittedAudio, remainingBudget, haudio, hfold⟩ := ih
          { st with omittedAudioItems := st.omittedAudioItems + 1 }
        refine ⟨{ parts with front := .inputAudio audioUrl :: parts.front }, congrArg _ hitems,
          ⟨hvalid.sublist.cons _, hvalid.onlyAudio, hvalid.spent_le, hvalid.snippet⟩, omittedAudio + 1, remainingBudget, ?_, ?_⟩
        · rw [countP_cons, ← haudio]
          exact Nat.add_right_comm _ _ _
        · rw [foldlM_cons, step, if_neg (Nat.not_le.mpr hlt), bind_eq_bind, bind_some, hfold]
          simp [ItemsCut.kept, Nat.add_assoc, Nat.add_comm 1]
      · exact scans_kept (by rw [step]; exact if_pos hle) hle ih

end Dcode.Truncation
