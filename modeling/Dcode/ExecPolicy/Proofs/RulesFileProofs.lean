import Dcode.ExecPolicy.Amend

/-!
# Proofs: the lines of the rules file

A line of an allow rule determines its tokens, and appending a line adds no other line to the file.
-/

namespace Dcode.ExecPolicy

open List Str

/-! ## Tokens can be read back -/

def hexValue (c : Char) : Nat := "0123456789abcdef".toList.idxOf c

def escapeValue : Str → Option (Char × Str)
  | 'u' :: '0' :: '0' :: a :: b :: rest => some (Char.ofNat (16 * hexValue a + hexValue b), rest)
  | 'n' :: rest => some ('\n', rest)
  | 'r' :: rest => some ('\r', rest)
  | 't' :: rest => some ('\t', rest)
  | 'b' :: rest => some (Char.ofNat 8, rest)
  | 'f' :: rest => some (Char.ofNat 12, rest)
  | c :: rest => some (c, rest)
  | [] => none

def jsonUnescape : Str → Option (Char × Str)
  | [] => none
  | c :: rest => if c = '\\' then escapeValue rest else some (c, rest)

theorem hexValue_hexDigit {n : Nat} (h : n < 16) : hexValue (hexDigit n) = n := by
  have hall : ∀ n : Fin 16, hexValue (hexDigit n) = n := by decide
  exact hall ⟨n, h⟩

theorem jsonUnescape_jsonEscape (c : Char) (rest : Str) : jsonUnescape (jsonEscape c ++ rest) = some (c, rest) := by
  unfold jsonEscape
  split_ifs with h1 h2 h3 h4 h5 h6 h7 h8
  · subst h1; rfl
  · subst h2; rfl
  · subst h3; rfl
  · subst h4; rfl
  · subst h5; rfl
  · rw [← Char.ofNat_toNat c, h6]; rfl
  · rw [← Char.ofNat_toNat c, h7]; rfl
  · have hval : 16 * hexValue (hexDigit (c.toNat / 16)) + hexValue (hexDigit (c.toNat % 16)) = c.toNat := by
      rw [hexValue_hexDigit (by omega), hexValue_hexDigit (by omega)]
      omega
    show some (Char.ofNat _, rest) = some (c, rest)
    rw [hval, Char.ofNat_toNat]
  · simp [jsonUnescape, h2]

theorem jsonEscape_head (c : Char) (rest : Str) : (jsonEscape c ++ rest).head? ≠ some '"' := by
  unfold jsonEscape
  split_ifs with h1
  all_goals simp [h1]

theorem jsonEscape_append_inj {c c' : Char} {rest rest' : Str}
    (h : jsonEscape c ++ rest = jsonEscape c' ++ rest') : c = c' ∧ rest = rest' := by
  have hread := congrArg jsonUnescape h
  rw [jsonUnescape_jsonEscape, jsonUnescape_jsonEscape] at hread
  exact Prod.mk.inj (Option.some.inj hread)

theorem jsonString_append_inj {s s' rest rest' : Str}
    (h : jsonString s ++ rest = jsonString s' ++ rest') : s = s' ∧ rest = rest' := by
  have hbody : s.flatMap jsonEscape ++ '"' :: rest = s'.flatMap jsonEscape ++ '"' :: rest' := by
    simpa [jsonString] using h
  clear h
  induction s generalizing s' with
  | nil =>
    cases s' with
    | nil => exact ⟨rfl, by simpa using hbody⟩
    | cons c s' =>
      rw [flatMap_cons, append_assoc] at hbody
      exact absurd (congrArg head? hbody).symm (jsonEscape_head c _)
  | cons c s ih =>
    cases s' with
    | nil =>
      rw [flatMap_cons, append_assoc] at hbody
      exact absurd (congrArg head? hbody) (jsonEscape_head c _)
    | cons c' s' =>
      rw [flatMap_cons, flatMap_cons, append_assoc, append_assoc] at hbody
      obtain ⟨rfl, hrest⟩ := jsonEscape_append_inj hbody
      obtain ⟨rfl, hr⟩ := ih hrest
      exact ⟨rfl, hr⟩

def patternTail : List Str → Str → Str
  | [], rest => ']' :: rest
  | t :: ts, rest => ',' :: ' ' :: (jsonString t ++ patternTail ts rest)

theorem intercalate_jsonString (t : Str) (ts : List Str) (rest : Str) :
    [',', ' '].intercalate ((t :: ts).map jsonString) ++ ']' :: rest = jsonString t ++ patternTail ts rest := by
  induction ts generalizing t with
  | nil => simp [intercalate, patternTail]
  | cons u us ih =>
    rw [map_cons, intercalate_cons_of_ne_nil (by simp), append_assoc, append_assoc, ih u]
    rfl

theorem patternTail_inj {ts ts' : List Str} {rest rest' : Str}
    (h : patternTail ts rest = patternTail ts' rest') : ts = ts' := by
  induction ts generalizing ts' with
  | nil =>
    cases ts' with
    | nil => rfl
    | cons t' ts' => exact absurd (congrArg head? h) (by simp [patternTail])
  | cons t ts ih =>
    cases ts' with
    | nil => exact absurd (congrArg head? h) (by simp [patternTail])
    | cons t' ts' =>
      obtain ⟨rfl, hrest⟩ := jsonString_append_inj (cons.inj (cons.inj h).2).2
      rw [ih hrest]

theorem allowRuleLine_eq (first : Str) (rest : List Str) :
    allowRuleLine (first :: rest) = "prefix_rule(pattern=[".toList ++
      (jsonString first ++ patternTail rest ", decision=\"allow\")".toList) := by
  rw [← intercalate_jsonString]
  rfl

/-- The line of an allow rule determines its tokens. -/
theorem allowRuleLine_inj {first first' : Str} {rest rest' : List Str}
    (h : allowRuleLine (first :: rest) = allowRuleLine (first' :: rest')) :
    first = first' ∧ rest = rest' := by
  rw [allowRuleLine_eq, allowRuleLine_eq] at h
  obtain ⟨hfirst, hrest⟩ := jsonString_append_inj (append_cancel_left h)
  exact ⟨hfirst, patternTail_inj hrest⟩

/-! ## Lines -/

def lineTexts (contents : Str) : List Str := (contents.splitOn '\n').map Str.stripCr

theorem mem_lineTexts_of_mem_lines {contents line : Str} (h : line ∈ lines contents)
    (hcr : line.getLast? ≠ some '\r') : line ∈ lineTexts contents := by
  have hinit : ∀ l ∈ (contents.splitOn '\n').dropLast.map stripCr, l ∈ lineTexts contents := by
    intro l hl
    obtain ⟨piece, hpiece, rfl⟩ := mem_map.mp hl
    exact mem_map.mpr ⟨piece, mem_of_mem_dropLast hpiece, rfl⟩
  unfold lines at h
  dsimp only at h
  split at h
  · exact hinit line h
  · exact hinit line h
  next last _ hlast =>
    rcases mem_append.mp h with h | h
    · exact hinit line h
    · obtain rfl := mem_singleton.mp h
      exact mem_map.mpr ⟨line, mem_of_getLast? hlast, stripCr_eq_self hcr⟩

theorem splitOn_append_newline (s t : Str) : (s ++ '\n' :: t).splitOn '\n' = s.splitOn '\n' ++ t.splitOn '\n' :=
  splitOnP_append_cons s t (by simp)

theorem mem_lineTexts_appendLockedLine {contents line l : Str} (hline : '\n' ∉ line)
    (hcr : line.getLast? ≠ some '\r') (hl : l ≠ [])
    (h : l ∈ lineTexts (appendLockedLine contents line)) : l ∈ lineTexts contents ∨ l = line := by
  unfold appendLockedLine at h
  split at h
  · exact Or.inl h
  · have hnew : lineTexts (line ++ ['\n']) = [line, []] := by
      unfold lineTexts
      rw [splitOn_append_newline, splitOn_eq_singleton hline]
      show [stripCr line, []] = [line, []]
      rw [stripCr_eq_self hcr]
    have hends : ∀ s : Str, l ∈ lineTexts (s ++ '\n' :: (line ++ ['\n'])) → l ∈ lineTexts s ∨ l = line := by
      intro s hs
      unfold lineTexts at hs hnew ⊢
      rw [splitOn_append_newline, map_append, hnew] at hs
      simpa [hl] using hs
    dsimp only at h
    split at h
    · exact hends contents (by simpa using h)
    next hnl =>
      rcases eq_nil_or_concat' contents with rfl | ⟨s, c, rfl⟩
      · rw [nil_append, hnew] at h
        exact Or.inr (by simpa [hl] using h)
      · obtain rfl : c = '\n' := by simpa using hnl
        rcases hends s (by simpa using h) with hs | rfl
        · left
          unfold lineTexts at hs ⊢
          rw [splitOn_append_newline, map_append]
          exact mem_append_left _ hs
        · exact Or.inr rfl

/-! ## The line of an allow rule is one line -/

theorem hexDigit_ne_newline {n : Nat} (h : n < 16) : hexDigit n ≠ '\n' := by
  have hall : ∀ n : Fin 16, hexDigit n ≠ '\n' := by decide
  exact hall ⟨n, h⟩

theorem newline_notMem_jsonEscape (c : Char) : '\n' ∉ jsonEscape c := by
  unfold jsonEscape
  split_ifs with h1 h2 h3 h4 h5 h6 h7 h8
  any_goals decide
  · have hhigh : hexDigit (c.toNat / 16) ≠ '\n' := hexDigit_ne_newline (by omega)
    have hlow : hexDigit (c.toNat % 16) ≠ '\n' := hexDigit_ne_newline (by omega)
    simp [hhigh.symm, hlow.symm]
  · simpa using fun h => h3 h.symm

theorem newline_notMem_jsonString (s : Str) : '\n' ∉ jsonString s := by
  unfold jsonString
  simp only [cons_append, mem_cons, mem_append, mem_flatMap, not_mem_nil, or_false]
  rintro (h | ⟨c, -, hc⟩ | h)
  · cases h
  · exact newline_notMem_jsonEscape c hc
  · cases h

theorem newline_notMem_patternTail {ts : List Str} {rest : Str} (h : '\n' ∉ rest) : '\n' ∉ patternTail ts rest := by
  induction ts with
  | nil => simpa [patternTail] using h
  | cons t ts ih => simpa [patternTail, newline_notMem_jsonString] using ih

theorem newline_notMem_allowRuleLine (first : Str) (rest : List Str) : '\n' ∉ allowRuleLine (first :: rest) := by
  rw [allowRuleLine_eq]
  intro h
  rcases mem_append.mp h with h | h
  · revert h
    decide
  · rcases mem_append.mp h with h | h
    · exact newline_notMem_jsonString first h
    · exact newline_notMem_patternTail (by decide) h

theorem allowRuleLine_getLast (tokens : List Str) : (allowRuleLine tokens).getLast? = some ')' := by
  unfold allowRuleLine
  rw [getLast?_append]
  rfl

end Dcode.ExecPolicy
