import Dcode.Protocol.ResponseItem
import Dcode.Truncation.Truncate

/-!
# Truncating the content items of a tool output

`truncate_text` and `truncate_function_output_items_with_policy` of `codex-rs/utils/output-truncation/src/lib.rs`.
-/

namespace Dcode.Truncation

open Protocol
open Str (byteLen)

inductive TruncationPolicy where
  | bytes (bytes : Nat)
  | tokens (tokens : Nat)
deriving DecidableEq

def TruncationPolicy.budget : TruncationPolicy → Nat
  | .bytes limit => limit
  | .tokens limit => limit

def TruncationPolicy.withBudget (remainingBudget : Nat) : TruncationPolicy → TruncationPolicy
  | .bytes _ => .bytes remainingBudget
  | .tokens _ => .tokens remainingBudget

def TruncationPolicy.textCost (text : Str) : TruncationPolicy → Nat
  | .bytes _ => byteLen text
  | .tokens _ => approxTokenCount text

def TruncationPolicy.audioCost (tokenCost : Nat) : TruncationPolicy → Nat
  | .bytes _ => approxBytesForTokens tokenCost
  | .tokens _ => tokenCost

def truncateText (content : Str) : TruncationPolicy → Option Str
  | .bytes bytes => truncateMiddleChars content bytes
  | .tokens tokens => (truncateMiddleWithTokenBudget content tokens).map Prod.fst

structure ItemsScan where
  out : List FunctionCallOutputContentItem := []
  remainingBudget : Nat
  omittedTextItems : Nat := 0
  omittedAudioItems : Nat := 0

variable (policy : TruncationPolicy) (estimateAudioTokenCount : Str → Nat)

def ItemsScan.step (st : ItemsScan) : FunctionCallOutputContentItem → Option ItemsScan
  | .inputText text =>
    if st.remainingBudget = 0 then some { st with omittedTextItems := st.omittedTextItems + 1 }
    else
      let cost := policy.textCost text
      if cost ≤ st.remainingBudget then
        some { st with out := st.out ++ [.inputText text], remainingBudget := st.remainingBudget - cost }
      else do
        let snippet ← truncateText text (policy.withBudget st.remainingBudget)
        if snippet.isEmpty then return { st with omittedTextItems := st.omittedTextItems + 1, remainingBudget := 0 }
        else return { st with out := st.out ++ [.inputText snippet], remainingBudget := 0 }
  | .inputImage imageUrl detail => some { st with out := st.out ++ [.inputImage imageUrl detail] }
  | .inputAudio audioUrl =>
    let cost := policy.audioCost (estimateAudioTokenCount audioUrl)
    if cost ≤ st.remainingBudget then
      some { st with out := st.out ++ [.inputAudio audioUrl], remainingBudget := st.remainingBudget - cost }
    else some { st with omittedAudioItems := st.omittedAudioItems + 1 }
  | .encryptedContent encryptedContent => some { st with out := st.out ++ [.encryptedContent encryptedContent] }

def omissionNotice (omitted : Nat) (kind : String) : List FunctionCallOutputContentItem :=
  if omitted > 0 then [.inputText ("[omitted ".toList ++ (toString omitted).toList ++ kind.toList)] else []

def truncateFunctionOutputItemsWithPolicy (items : List FunctionCallOutputContentItem) :
    Option (List FunctionCallOutputContentItem) := do
  let st ← items.foldlM (ItemsScan.step policy estimateAudioTokenCount) { remainingBudget := policy.budget }
  return st.out ++ omissionNotice st.omittedTextItems " text items ...]" ++
    omissionNotice st.omittedAudioItems " audio items ...]"

end Dcode.Truncation
