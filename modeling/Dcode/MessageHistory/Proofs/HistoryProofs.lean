import Dcode.MessageHistory.History

/-!
# One entry and a batch of them

The batch holds for its last offset what the row there parses to. The lookup of one entry has the same unless one of the rows
up to it is not UTF-8.
-/

namespace Dcode.MessageHistory

open List

theorem flatten_rows (file : Bytes) : (rows file).flatten = file := by
  induction file with
  | nil => rfl
  | cons b rest ih =>
    rw [rows]
    split
    · rw [flatten_cons, ih]
      rfl
    · cases hrest : rows rest with
      | nil | cons row more =>
        rw [← ih, hrest]
        rfl

variable {E : Type} {parse : Bytes → Option E} {suffix : List RawHistoryBatchEntry}

/-! ## Batches -/

def withBytes (suffix : List RawHistoryBatchEntry) : Suffix := (suffix, (suffix.map (·.byteLen)).sum)

theorem popFront_append {entry : RawHistoryBatchEntry} (hfits : entry.byteLen ≤ maxBatchBytes)
    (suffix : List RawHistoryBatchEntry) :
    ∃ older ⊆ suffix, popFront (suffix ++ [entry]) (withBytes (suffix ++ [entry])).2 = withBytes (older ++ [entry]) := by
  induction suffix with
  | nil => exact ⟨[], Subset.refl _, by simp [popFront, withBytes, hfits, maxBatchRows]⟩
  | cons removed suffix ih =>
    rw [cons_append, popFront]
    split
    · obtain ⟨older, hsub, hpop⟩ := ih
      refine ⟨older, fun e he => mem_cons_of_mem _ (hsub he), ?_⟩
      rw [← hpop]
      simp [withBytes]
    · exact ⟨removed :: suffix, Subset.refl _, rfl⟩

/-- The newest row is always retained. -/
theorem retainRow_withBytes (suffix : List RawHistoryBatchEntry) (entry : RawHistoryBatchEntry) :
    ∃ older ⊆ suffix, retainRow (withBytes suffix) entry = withBytes (older ++ [entry]) := by
  rw [withBytes, retainRow]
  split
  · exact ⟨[], nil_subset _, by simp [withBytes]⟩
  next hfits =>
    obtain ⟨older, hsub, hpop⟩ := popFront_append (Nat.not_lt.mp hfits) suffix
    refine ⟨older, hsub, ?_⟩
    rw [← hpop]
    simp [withBytes]

theorem entryAt_eq_none {file : Bytes} {offset : Nat} (h : ∀ raw ∈ suffix, raw.offset < offset) :
    entryAt (finishMaterializedBatch parse file suffix.reverse) offset = none := by
  rw [entryAt, find?_eq_none.mpr, Option.bind_none]
  simp only [finishMaterializedBatch, mem_map, mem_reverse]
  rintro _ ⟨raw, hraw, rfl⟩
  simpa using (h raw hraw).ne

/-- The batch that ends at an offset has what the row at the offset parses to. -/
theorem entryAt_scanRows (left offset : Nat) (read : Bytes) (rows : List Bytes) (h : ∀ raw ∈ suffix, raw.offset < offset) :
    entryAt (finishMaterializedBatch parse (read ++ rows.flatten)
        (scanRows (left + 1) offset read.length (withBytes suffix) rows).reverse) (offset + left) =
      rows[left]?.bind (tryParseEntry parse) := by
  induction rows generalizing left offset read suffix with
  | nil => exact entryAt_eq_none fun raw hraw => Nat.lt_add_right _ (h raw hraw)
  | cons row rows ih =>
    obtain ⟨older, hsub, hretain⟩ := retainRow_withBytes suffix
      ⟨offset, read.length, row.length, if row.length ≤ maxBatchBytes then some row else none⟩
    rw [scanRows, hretain, flatten_cons]
    cases left with
    | zero =>
      have hrow : (if row.length ≤ maxBatchBytes then some row else none).getD row = row := by split <;> rfl
      simp [scanRows, withBytes, finishMaterializedBatch, entryAt, hrow]
    | succ left =>
      rw [← append_assoc, ← length_append, getElem?_cons_succ, ← Nat.add_assoc, Nat.add_right_comm]
      refine ih left (offset + 1) (read ++ row) (forall_mem_append.mpr ⟨fun raw hraw => ?_, ?_⟩)
      · exact Nat.lt_succ_of_lt (h raw (hsub hraw))
      · simp

/-! ## Lookups -/

theorem lookupFrom_eq (idx n : Nat) (rows : List Bytes) : lookupFrom parse (idx + n) idx rows =
    if (rows.take (n + 1)).all isUtf8 then rows[n]?.bind fun row => (lineOf row).bind parse else none := by
  induction rows generalizing idx n with
  | nil => simp [lookupFrom]
  | cons row rows ih =>
    rw [lookupFrom, take_succ_cons]
    cases hutf : isUtf8 row with
    | false => simp [lineOf, hutf]
    | true =>
      cases n with
      | zero => simp [lineOf, hutf]
      | succ n =>
        have hrest := ih (idx + 1) n
        rw [Nat.add_assoc, Nat.add_comm 1] at hrest
        simpa [lineOf, hutf] using hrest

theorem lineOf_bind (hcr : ∀ line, parse (line ++ [13]) = parse line) {row : Bytes} (hutf : isUtf8 row) :
    (lineOf row).bind parse = tryParseEntry parse row := by
  rw [lineOf, if_pos hutf, Option.bind_some, tryParseEntry, stripSuffix.eq_def 10]
  split
  · rfl
  · rw [stripSuffix]
    split
    next hlast =>
      obtain ⟨line, rfl⟩ := getLast?_eq_some_iff.mp hlast
      rw [hcr, dropLast_concat]
    · rfl

/-- One lookup and the batch agree exactly if the row does not parse or all rows up to it are UTF-8. -/
theorem lookup_eq_entryAt_iff {E : Type} {parse : Bytes → Option E} (hcr : ∀ line, parse (line ++ [13]) = parse line)
    (file : Bytes) (offset : Nat) :
    lookupHistoryEntry parse file offset = entryAt (scanBatchForward parse file offset) offset ↔
      (rows file)[offset]?.bind (tryParseEntry parse) = none ∨ ∀ row ∈ (rows file).take (offset + 1), isUtf8 row := by
  have hbatch := @entryAt_scanRows E parse [] offset 0 [] (rows file) (by simp)
  have hlookup := @lookupFrom_eq E parse 0 offset (rows file)
  rw [Nat.zero_add, nil_append, flatten_rows] at hbatch
  rw [Nat.zero_add] at hlookup
  change entryAt (scanBatchForward parse file offset) offset = _ at hbatch
  rw [hbatch, lookupHistoryEntry, hlookup, ← all_eq_true]
  by_cases hutf : ((rows file).take (offset + 1)).all isUtf8
  · rw [if_pos hutf]
    refine iff_of_true ?_ (.inr hutf)
    cases hrow : (rows file)[offset]? with
    | none => rfl
    | some row =>
      have htaken := (getElem?_take_of_lt (Nat.lt_succ_self offset)).trans hrow
      exact lineOf_bind hcr (all_eq_true.mp hutf row (mem_of_getElem? htaken))
  · rw [if_neg hutf]
    exact ⟨fun h => .inl h.symm, fun h => (h.resolve_right hutf).symm⟩

/-! ## A file of records -/

/-- `HistoryEntry`. -/
structure HistoryEntry where
  sessionId : Str
  ts : Nat
  text : Str
deriving DecidableEq

def isJsonWhitespace (b : UInt8) : Bool := b == 9 || b == 10 || b == 13 || b == 32

/-- Reads a record as `append_entry` writes it, with white space behind it. Texts with escapes or other characters than
those of ASCII are left out. -/
def readRecord (row : Bytes) : Option HistoryEntry := do
  let record := Str.asciiText (row.rdropWhile isJsonWhitespace)
  let rest ← Str.stripPrefix "\x7b\"session_id\":\"".toList record
  let sessionId := rest.takeWhile (· ≠ '"')
  let rest ← Str.stripPrefix "\",\"ts\":".toList (rest.dropWhile (· ≠ '"'))
  let digits := rest.takeWhile Char.isDigit
  let rest ← Str.stripPrefix ",\"text\":\"".toList (rest.dropWhile Char.isDigit)
  let text := rest.takeWhile (· ≠ '"')
  if rest.dropWhile (· ≠ '"') = "\"\x7d".toList ∧ digits ≠ [] ∧ record.all (fun c => c.toNat < 128 && c ≠ '\\') then
    some ⟨sessionId, Nat.ofDigitChars 10 digits 0, text⟩
  else none

def recordRow (text : String) : Bytes :=
  Str.asciiBytes ("\x7b\"session_id\":\"s\",\"ts\":1763337600,\"text\":\"".toList ++ text.toList ++ "\"\x7d\n".toList)

theorem readRecord_concat_cr (line : Bytes) : readRecord (line ++ [13]) = readRecord line := by
  rw [readRecord, rdropWhile_concat_pos _ _ _ rfl]
  rfl

/-- The second of two records. -/
theorem lookup_eq_entryAt_second : lookupHistoryEntry readRecord (recordRow "ls" ++ recordRow "pwd") 1 =
      entryAt (scanBatchForward readRecord (recordRow "ls" ++ recordRow "pwd") 1) 1 ∧
    lookupHistoryEntry readRecord (recordRow "ls" ++ recordRow "pwd") 1 = some ⟨['s'], 1763337600, "pwd".toList⟩ :=
  ⟨(lookup_eq_entryAt_iff readRecord_concat_cr _ 1).mpr (.inr (by decide +kernel)), by decide +kernel⟩

/-- A row that is not UTF-8 hides the record behind it from the lookup. -/
theorem lookup_ne_entryAt : lookupHistoryEntry readRecord (255 :: 10 :: recordRow "pwd") 1 = none ∧
    entryAt (scanBatchForward readRecord (255 :: 10 :: recordRow "pwd") 1) 1 = some ⟨['s'], 1763337600, "pwd".toList⟩ := by
  decide +kernel

end Dcode.MessageHistory
