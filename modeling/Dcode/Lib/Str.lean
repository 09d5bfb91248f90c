import Mathlib.Data.List.DropRight
import Mathlib.Tactic

/-!
# Text as a list of characters

The operations of Rust's `str` that line-oriented programs use: trimming by the Unicode `White_Space`
property, stripping prefixes and line endings, splitting into lines and joining them again. A text is
the list of its characters, so that the operations are structural and evaluate.
-/

/-- A text: the sequence of its characters. -/
abbrev Str := List Char

abbrev Bytes := List UInt8

namespace Str

open List

instance instLawfulBEq : LawfulBEq Str := inferInstanceAs (LawfulBEq (List Char))

/-! ## Whitespace -/

def isWhitespace (c : Char) : Bool :=
  let n := c.toNat
  (9 ≤ n && n ≤ 13) || n == 0x20 || n == 0x85 || n == 0xA0 || n == 0x1680 ||
    (0x2000 ≤ n && n ≤ 0x200A) || n == 0x2028 || n == 0x2029 || n == 0x202F || n == 0x205F ||
    n == 0x3000

def trimStart (s : Str) : Str := s.dropWhile isWhitespace

def trimEnd (s : Str) : Str := s.rdropWhile isWhitespace

def trim (s : Str) : Str := trimEnd (trimStart s)

def NoTrailing (s : Str) : Prop := ∀ c, s.getLast? = some c → isWhitespace c = false

def NoLeading (s : Str) : Prop := ∀ c, s.head? = some c → isWhitespace c = false

instance (s : Str) : Decidable (NoTrailing s) :=
  match h : s.getLast? with
  | none => isTrue (by simp [NoTrailing, h])
  | some c =>
    if hc : isWhitespace c = false then isTrue (by simp [NoTrailing, h, hc])
    else isFalse (by simp [NoTrailing, h, hc])

instance (s : Str) : Decidable (NoLeading s) :=
  match h : s.head? with
  | none => isTrue (by simp [NoLeading, h])
  | some c =>
    if hc : isWhitespace c = false then isTrue (by simp [NoLeading, h, hc])
    else isFalse (by simp [NoLeading, h, hc])

variable {s : Str}

theorem trimEnd_eq_self (h : NoTrailing s) : trimEnd s = s := by
  refine rdropWhile_eq_self_iff.mpr fun hl => ?_
  simp [h _ (getLast?_eq_some_getLast hl)]

theorem trimStart_eq_self (h : NoLeading s) : trimStart s = s := by
  cases s with
  | nil => rfl
  | cons c s => simp [trimStart, h c rfl]

theorem trim_eq_self (hl : NoLeading s) (ht : NoTrailing s) : trim s = s := by
  rw [trim, trimStart_eq_self hl, trimEnd_eq_self ht]

theorem trim_of_noLeading (h : NoLeading s) : trim s = trimEnd s := by
  rw [trim, trimStart_eq_self h]

variable {c : Char}

@[simp] theorem trimEnd_concat_ws (s : Str) (hc : isWhitespace c) : trimEnd (s ++ [c]) = trimEnd s :=
  rdropWhile_concat_pos isWhitespace s c hc

theorem trim_concat_ws (s : Str) (hc : isWhitespace c) : trim (s ++ [c]) = trim s := by
  unfold trim trimStart
  by_cases hs : ∀ x ∈ s, isWhitespace x
  · have h1 : s.dropWhile isWhitespace = [] := dropWhile_eq_nil_iff.mpr hs
    have h2 : (s ++ [c]).dropWhile isWhitespace = [] := by
      refine dropWhile_eq_nil_iff.mpr fun x hx => ?_
      rcases mem_append.mp hx with hx | hx
      · exact hs x hx
      · rw [mem_singleton.mp hx, hc]
    rw [h1, h2]
  · have h1 : (s.dropWhile isWhitespace).isEmpty = false := by
      rw [Bool.eq_false_iff]
      intro h
      exact hs (dropWhile_eq_nil_iff.mp (isEmpty_iff.mp h))
    rw [dropWhile_append, h1]
    exact trimEnd_concat_ws _ hc

theorem trim_concat_visible (t : Str) (hc : isWhitespace c = false) : ∃ u, trim (t ++ [c]) = u ++ [c] := by
  have hstart : ∃ u, trimStart (t ++ [c]) = u ++ [c] := by
    unfold trimStart
    rw [dropWhile_append]
    split
    · exact ⟨[], by simp [hc]⟩
    · exact ⟨_, rfl⟩
  obtain ⟨u, hu⟩ := hstart
  exact ⟨u, by rw [trim, hu, trimEnd_eq_self (by simp [NoTrailing, hc])]⟩

theorem trim_ne_nil (hs : s ≠ []) (h : NoTrailing s) : trim s ≠ [] := by
  obtain ⟨t, c, rfl⟩ := eq_nil_or_concat' s |>.resolve_left hs
  obtain ⟨u, hu⟩ := trim_concat_visible t (h c (by simp))
  rw [hu]
  simp

theorem noTrailing_trim (s : Str) : NoTrailing (trim s) := by
  intro c hc
  have hne : trim s ≠ [] := fun hnil => by simp [hnil] at hc
  have hlast := rdropWhile_last_not isWhitespace (trimStart s) hne
  rw [getLast?_eq_some_getLast hne] at hc
  rw [← Option.some.inj hc]
  simpa [trim, trimEnd] using hlast

theorem noLeading_trim (s : Str) : NoLeading (trim s) := by
  intro c hc
  have hstart : trim s <+: trimStart s := rdropWhile_prefix _ _
  obtain ⟨rest, hrest⟩ := head?_eq_some_iff.mp hc
  obtain ⟨tail, htail⟩ := hstart
  have hhead := head?_dropWhile_not isWhitespace s
  rw [← trimStart, ← htail, hrest] at hhead
  simpa using hhead

theorem trim_sublist (s : Str) : (trim s).Sublist s := by
  have hstarts := rdropWhile_prefix isWhitespace (s.dropWhile isWhitespace)
  exact hstarts.sublist.trans (dropWhile_sublist _)

theorem trimEnd_cons (hc : isWhitespace c = false) (s : Str) : trimEnd (c :: s) = c :: trimEnd s := by
  induction s using reverseRecOn with
  | nil => exact trimEnd_eq_self (by simp [NoTrailing, hc])
  | append_singleton s d ih =>
    by_cases hd : isWhitespace d
    · rw [← cons_append, trimEnd_concat_ws _ hd, trimEnd_concat_ws _ hd, ih]
    · have h : ∀ t : Str, trimEnd (t ++ [d]) = t ++ [d] := fun t =>
        rdropWhile_concat_neg isWhitespace t d hd
      rw [← cons_append, h, h, cons_append]

theorem exists_rdropWhile (p : Char → Bool) (s : Str) : ∃ t, s = s.rdropWhile p ++ t ∧ ∀ c ∈ t, p c := by
  refine ⟨(s.reverse.takeWhile p).reverse, ?_, fun c hc => mem_takeWhile_imp (mem_reverse.mp hc)⟩
  rw [rdropWhile, ← reverse_append, takeWhile_append_dropWhile, reverse_reverse]

theorem rdropWhile_append_of_all {p : Char → Bool} {t : Str} (ht : ∀ c ∈ t, p c) :
    (s ++ t).rdropWhile p = s.rdropWhile p := by
  rw [rdropWhile, reverse_append, dropWhile_append_of_pos fun c hc => ht c (mem_reverse.mp hc), rdropWhile]

theorem trim_append_blanks {lead blanks : Str} (hlead : ∀ c ∈ lead, isWhitespace c)
    (hblanks : ∀ c ∈ blanks, isWhitespace c) : trim (lead ++ (s ++ blanks)) = trim s := by
  induction blanks using reverseRecOn with
  | nil => rw [append_nil, trim, trimStart, dropWhile_append_of_pos hlead, trim, trimStart]
  | append_singleton blanks c ih =>
    rw [← append_assoc s, ← append_assoc lead, trim_concat_ws _ (hblanks c (by simp))]
    exact ih fun d hd => hblanks d (by simp [hd])

/-! ## Prefixes and line endings -/

def splitOnce (c : Char) (s : Str) : Option (Str × Str) :=
  if c ∈ s then some (s.takeWhile (· ≠ c), (s.dropWhile (· ≠ c)).tail) else none

def find (needle : Str) : Str → Option Nat
  | [] => if needle.isEmpty then some 0 else none
  | c :: s => if needle.isPrefixOf (c :: s) then some 0 else (find needle s).map (· + 1)

theorem find_eq_some_iff {needle : Str} {i : Nat} : find needle s = some i ↔
    (i + needle.length ≤ s.length ∧ needle <+: s.drop i) ∧ ∀ j < i, ¬ needle <+: s.drop j := by
  induction s generalizing i with
  | nil => cases needle <;> cases i <;> simp [find]
  | cons c s ih =>
    rw [find]
    split
    next hfirst =>
      have hstarts := isPrefixOf_iff_prefix.mp hfirst
      cases i with
      | zero => simpa using ⟨hstarts.length_le, hstarts⟩
      | succ i => simpa using fun _ _ => ⟨0, Nat.zero_le _, hstarts⟩
    next hfirst =>
      have hfirst := isPrefixOf_iff_prefix.not.mp hfirst
      cases i with
      | zero => simp [hfirst]
      | succ i =>
        rw [Nat.forall_lt_succ_left]
        simp [ih, hfirst, Nat.add_right_comm]

theorem prefix_of_find {needle : Str} {i : Nat} (h : find needle s = some i) : needle <+: s.drop i :=
  (find_eq_some_iff.mp h).1.2

def splitOnceStr (needle s : Str) : Option (Str × Str) :=
  (find needle s).map fun i => (s.take i, s.drop (i + needle.length))

def toAsciiLowercase (s : Str) : Str := s.map Char.toLower

def byteLen (s : Str) : Nat := (s.map Char.utf8Size).sum

def trimEndMatches (c : Char) (s : Str) : Str := s.rdropWhile (· == c)

theorem trimEndMatches_sublist (c : Char) (s : Str) : (trimEndMatches c s).Sublist s := by
  have hstarts := rdropWhile_prefix (· == c) s
  exact hstarts.sublist

def stripPrefix (p s : Str) : Option Str := p.isPrefixOf? s

def stripSuffix (p s : Str) : Option Str := p.isSuffixOf? s

/-- The bytes of an ASCII text. -/
def asciiBytes (s : Str) : Bytes := s.map fun c => UInt8.ofNat c.toNat

/-- The text of ASCII bytes. -/
def asciiText (bytes : Bytes) : Str := bytes.map fun b => Char.ofNat b.toNat

theorem asciiText_asciiBytes {s : Str} (h : ∀ c ∈ s, c.toNat < 128) : asciiText (asciiBytes s) = s := by
  rw [asciiText, asciiBytes, map_map]
  refine (map_congr_left fun c hc => ?_).trans (map_id s)
  have hlt : c.toNat < 2 ^ 8 := (h c hc).trans (by decide)
  rw [Function.comp_apply, UInt8.toNat_ofNat_of_lt' hlt, Char.ofNat_toNat, id]

theorem stripPrefix_eq_some {p t : Str} : stripPrefix p s = some t ↔ s = p ++ t := by
  rw [stripPrefix, isPrefixOf?_eq_some_iff_append_eq, eq_comm]

@[simp] theorem stripPrefix_append (p t : Str) : stripPrefix p (p ++ t) = some t :=
  stripPrefix_eq_some.mpr rfl

theorem stripPrefix_cons_ne {d : Char} (h : c ≠ d) (p s : Str) : stripPrefix (c :: p) (d :: s) = none := by
  simp [stripPrefix, isPrefixOf?, h]

/-- A prefix that goes another way than the text's own cannot be stripped. -/
theorem stripPrefix_append_none {p q : Str} (hpq : ¬ p <+: q) (hqp : ¬ q <+: p) (t : Str) :
    stripPrefix p (q ++ t) = none := by
  rw [← Option.not_isSome_iff_eq_none]
  intro h
  obtain ⟨u, hu⟩ := Option.isSome_iff_exists.mp h
  have hp : p <+: q ++ t := ⟨u, (stripPrefix_eq_some.mp hu).symm⟩
  rcases prefix_or_prefix_of_prefix hp (prefix_append q t) with h | h
  · exact hpq h
  · exact hqp h

/-- The line without its carriage return, if it ends in one: `strip_suffix('\r')` or the line. -/
def stripCr (s : Str) : Str := if s.getLast? = some '\r' then s.dropLast else s

theorem isWhitespace_cr : isWhitespace '\r' := rfl

theorem stripCr_eq_self (h : s.getLast? ≠ some '\r') : stripCr s = s := if_neg h

@[simp] theorem stripCr_concat (s : Str) : stripCr (s ++ ['\r']) = s := by simp [stripCr]

theorem stripCr_cases (s : Str) : (∃ t, s = t ++ ['\r'] ∧ stripCr s = t) ∨
    (s.getLast? ≠ some '\r' ∧ stripCr s = s) := by
  by_cases h : s.getLast? = some '\r'
  · obtain ⟨t, rfl⟩ := getLast?_eq_some_iff.mp h
    exact Or.inl ⟨t, rfl, stripCr_concat t⟩
  · exact Or.inr ⟨h, stripCr_eq_self h⟩

theorem mem_of_mem_stripCr (h : c ∈ stripCr s) : c ∈ s := by
  rcases stripCr_cases s with ⟨t, rfl, ht⟩ | ⟨_, ht⟩
  · exact mem_append_left _ (ht ▸ h)
  · exact ht ▸ h

@[simp] theorem trim_stripCr (s : Str) : trim (stripCr s) = trim s := by
  rcases stripCr_cases s with ⟨t, rfl, h⟩ | ⟨_, h⟩
  · rw [h, trim_concat_ws t isWhitespace_cr]
  · rw [h]

/-! ## Lines -/

/-- `str::lines`: the pieces between line feeds, without the piece after a final line feed. A piece
that a line feed ends loses one carriage return; the unterminated last piece keeps its own. -/
def lines (s : Str) : List Str :=
  let pieces := s.splitOn '\n'
  match pieces.getLast? with
  | some [] | none => pieces.dropLast.map stripCr
  | some last => pieces.dropLast.map stripCr ++ [last]

def joinLines (ls : List Str) : Str := ['\n'].intercalate ls

variable {ls : List Str}

theorem joinLines_cons (l : Str) (h : ls ≠ []) : joinLines (l :: ls) = l ++ '\n' :: joinLines ls := by
  rw [joinLines, intercalate_cons_of_ne_nil h, append_assoc]
  rfl

theorem joinLines_concat (h : ls ≠ []) (last : Str) : joinLines (ls ++ [last]) = joinLines ls ++ '\n' :: last := by
  induction ls with
  | nil => exact absurd rfl h
  | cons l ls ih =>
    by_cases hls : ls = []
    · subst hls
      simp [joinLines]
    · rw [cons_append, joinLines_cons l (by simp), joinLines_cons l hls, ih hls]
      simp

/-- The lines of a text whose last piece is not empty. -/
theorem lines_joinLines {last : Str} (hls : ∀ l ∈ ls, '\n' ∉ l) (hlast : '\n' ∉ last) (hne : last ≠ []) :
    lines (joinLines (ls ++ [last])) = ls.map stripCr ++ [last] := by
  have hsplit : (joinLines (ls ++ [last])).splitOn '\n' = ls ++ [last] := by
    refine splitOn_intercalate '\n' (fun l hl => ?_) (by simp)
    rcases mem_append.mp hl with hl | hl
    · exact hls l hl
    · rw [mem_singleton.mp hl]; exact hlast
  rw [lines, hsplit]
  cases last with
  | nil => exact absurd rfl hne
  | cons c cs => simp

theorem not_mem_of_mem_splitOn {a : Char} {l : Str} (h : l ∈ s.splitOn a) : a ∉ l := by
  induction s generalizing l with
  | nil => simp_all
  | cons c s ih =>
    rw [splitOn_cons_eq_if_modifyHead] at h
    split at h
    · rcases mem_cons.mp h with rfl | h
      · simp
      · exact ih h
    next hc =>
      cases hs : s.splitOn a with
      | nil => exact absurd hs (splitOn_ne_nil a s)
      | cons p ps =>
        rw [hs] at h ih
        rcases mem_cons.mp h with rfl | h
        · have hp : a ∉ p := ih mem_cons_self
          have hca : ¬ a = c := fun e => hc (by simp [e])
          simp [hca, hp]
        · exact ih (mem_cons_of_mem _ h)

end Str
