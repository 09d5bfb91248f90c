import Dcode.ThreadStore.Projection
import Dcode.Rollout.Proofs.RecorderProofs
import Dcode.Lib.Run

/-!
# Each item once

After a flush the records of the file are the metadata of the session and the items that were added, and the file is
read for the thread history, exactly if no write has failed after the whole text of its line: the text is then
terminated when the file is opened again, and the line is written once more with the same ordinal.
-/

namespace Dcode.ThreadStore

open Rollout List LineWrite

variable {Timestamp Meta Git Item Value : Type} {json : LineJson Timestamp Meta Git Item Value}
  {projection : LineProjection Timestamp Meta Git Item} {subagentStart : Option Nat}

/-! ## Reading the lines -/

/-- The next record is the one with `ordinal`; the lines that were rejected may have taken those in between. -/
structure Awaits (loop : ProjectionState) (ordinal : Nat) : Prop where
  le : loop.nextOrdinal ≤ ordinal
  covered : ordinal ≤ loop.nextOrdinal + loop.pendingRejectedLineCount

theorem Awaits.reject {loop : ProjectionState} {ordinal : Nat} (h : Awaits loop ordinal) (lineEndOffset : Nat) :
    Awaits (loop.reject lineEndOffset) ordinal := by
  refine ⟨h.le, ?_⟩
  have hcovered := h.covered
  change ordinal ≤ loop.nextOrdinal + (loop.pendingRejectedLineCount + 1)
  omega

theorem all_isAsciiWhitespace_eq_false {text : Bytes} {b : UInt8} {rest : Bytes} (htext : text = b :: rest)
    (hb : isAsciiWhitespace b = false) (more : Bytes) : (text ++ more).all isAsciiWhitespace = false := by
  rw [htext, cons_append, all_cons, hb, Bool.false_and]

theorem readProjectionLine_torn (hjson : json.Lawful) {line : RolloutLine Timestamp Meta Git Item} {kept : Nat}
    (hkept : kept < (json.toString line).length) (hne : (json.toString line).take kept ≠ []) (loop : ProjectionState) :
    ∃ lineEndOffset, readProjectionLine json projection subagentStart loop ((json.toString line).take kept ++ [newline]) =
      .ok (loop.reject lineEndOffset) := by
  obtain ⟨b, rest, htext, hb⟩ := hjson.opens line
  obtain ⟨kept', rfl⟩ : ∃ k, kept = k + 1 := by
    cases kept with
    | zero => exact absurd rfl hne
    | succ k => exact ⟨k, rfl⟩
  have htake : (json.toString line).take (kept' + 1) = b :: rest.take kept' := by rw [htext, take_succ_cons]
  rw [readProjectionLine, all_isAsciiWhitespace_eq_false htake hb, hjson.torn line _ hkept]
  exact ⟨_, rfl⟩

theorem fallbackCreatedAtMs_isSome (hvalid : ∀ timestamp, (projection.timestampMillis timestamp).isSome)
    (line : RolloutLine Timestamp Meta Git Item) (ordinal : Nat) :
    ∃ fallback, fallbackCreatedAtMs projection subagentStart line ordinal = some fallback := by
  rw [fallbackCreatedAtMs]
  split
  · obtain ⟨millis, hmillis⟩ := Option.isSome_iff_exists.mp (hvalid line.timestamp)
    rw [hmillis]
    exact ⟨_, rfl⟩
  · exact ⟨none, rfl⟩

/-- A record with the ordinal that is awaited is read, unless there is no ordinal after it. -/
theorem readProjectionLine_record (hjson : json.Lawful)
    (hvalid : ∀ timestamp, (projection.timestampMillis timestamp).isSome)
    {line : RolloutLine Timestamp Meta Git Item} {ordinal : Nat} (hordinal : line.ordinal = some ordinal)
    {loop : ProjectionState} (h : Awaits loop ordinal) :
    if ordinal + 1 < 2 ^ 64 then
      ∃ next, readProjectionLine json projection subagentStart loop (json.toString line ++ [newline]) = .ok next ∧
        Awaits next (ordinal + 1)
    else
      readProjectionLine json projection subagentStart loop (json.toString line ++ [newline]) = .error .ordinalOverflow := by
  obtain ⟨b, rest, htext, hb⟩ := hjson.opens line
  obtain ⟨value, hvalue, hline⟩ := hjson.parses line
  obtain ⟨fallback, hfallback⟩ :=
    @fallbackCreatedAtMs_isSome Timestamp Meta Git Item projection subagentStart hvalid line ordinal
  have hle := h.le
  have hcovered := h.covered
  have hread : readProjectionLine json projection subagentStart loop (json.toString line ++ [newline]) =
      projectLine projection subagentStart loop line ordinal
        (loop.lineStartOffset + (json.toString line ++ [newline]).length) := by
    rw [readProjectionLine, all_isAsciiWhitespace_eq_false htext hb, if_neg Bool.false_ne_true, hvalue]
    simp only [hline, Option.bind_some, hordinal, Option.some_or]
    rw [if_neg (by omega)]
  have hgap : ¬ loop.pendingRejectedLineCount < ordinal - loop.nextOrdinal := by omega
  rw [hread, projectLine, if_neg hgap, hfallback]
  by_cases hbound : ordinal + 1 < 2 ^ 64
  · have hsucc : checkedSucc ordinal = some (ordinal + 1) := if_pos hbound
    rw [if_pos hbound, hsucc]
    exact ⟨_, rfl, Nat.le_refl _, Nat.le_refl _⟩
  · have hsucc : checkedSucc ordinal = none := if_neg hbound
    rw [if_neg hbound, hsucc]

/-- The lines of a file with consecutive ordinals are read if there is an ordinal after each of them. -/
theorem foldlM_readProjectionLine (hjson : json.Lawful)
    (hvalid : ∀ timestamp, (projection.timestampMillis timestamp).isSome)
    {writes : List (LineWrite Timestamp Meta Git Item)} (htorn : ∀ write ∈ writes, write.Torn json) {ordinal count : Nat}
    (hordinals : (writes.filterMap written?).map (·.ordinal) = (range' ordinal count).map some)
    {loop : ProjectionState} (h : Awaits loop ordinal) :
    (∃ last, (((writes.map (text json)).filter (· ≠ [])).map (· ++ [newline])).foldlM
        (readProjectionLine json projection subagentStart) loop = .ok last) ↔ count = 0 ∨ ordinal + count < 2 ^ 64 := by
  induction writes generalizing ordinal count loop with
  | nil =>
    have hcount : count = 0 := by
      have hlength := congrArg length hordinals
      simpa using hlength.symm
    exact iff_of_true ⟨loop, rfl⟩ (.inl hcount)
  | cons write writes ih =>
    rw [forall_mem_cons] at htorn
    rw [map_cons, filter_cons]
    cases hfailed : write.failedAfter with
    | some kept =>
      -- a failed write
      have hnone : write.written? = none := by
        rw [written?, hfailed]
        rfl
      have htext : write.text json = (json.toString write.line).take kept := by rw [text, hfailed]
      rw [filterMap_cons_none hnone] at hordinals
      by_cases hnil : write.text json = []
      · simp only [hnil]
        exact ih htorn.2 hordinals h
      · simp only [ne_eq, hnil, not_false_eq_true, decide_true, if_true]
        rw [htext] at hnil
        obtain ⟨lineEndOffset, hread⟩ := @readProjectionLine_torn _ _ _ _ _ json projection subagentStart hjson
          write.line kept (htorn.1 kept hfailed) hnil loop
        rw [map_cons, foldlM_cons, htext, hread]
        exact ih htorn.2 hordinals (h.reject lineEndOffset)
    | none =>
      -- a record
      have hsome : write.written? = some write.line := by
        rw [written?, hfailed]
        rfl
      have htext : write.text json = json.toString write.line := by rw [text, hfailed]
      obtain ⟨b, rest, hopens, -⟩ := hjson.opens write.line
      have hne : write.text json ≠ [] := by
        rw [htext, hopens]
        exact cons_ne_nil _ _
      rw [filterMap_cons_some hsome] at hordinals
      obtain ⟨count, rfl⟩ : ∃ n, count = n + 1 := by
        cases count with
        | zero => cases hordinals
        | succ n => exact ⟨n, rfl⟩
      obtain ⟨hordinal, hrest⟩ := cons.inj hordinals
      have hrecord := @readProjectionLine_record _ _ _ _ _ json projection subagentStart hjson hvalid write.line ordinal
        hordinal loop h
      simp only [ne_eq, hne, not_false_eq_true, decide_true, if_true]
      rw [map_cons, foldlM_cons, htext]
      by_cases hbound : ordinal + 1 < 2 ^ 64
      · rw [if_pos hbound] at hrecord
        obtain ⟨next, hread, hnext⟩ := hrecord
        rw [hread]
        refine (ih htorn.2 hrest hnext).trans ?_
        omega
      · rw [if_neg hbound] at hrecord
        rw [hrecord]
        refine iff_of_false ?_ (by omega)
        rintro ⟨last, hlast⟩
        cases hlast

/-! ## After a flush -/

/-- The records are the metadata of the session and the items that were added, in order, with consecutive ordinals. -/
def ExactlyOnce (sessionMeta : Meta) (base : Nat) (added : List Item)
    (records : List (RolloutLine Timestamp Meta Git Item)) : Prop :=
  (∃ git, records.map (·.item) = .sessionMeta sessionMeta git :: added.map .item) ∧
    records.map (·.ordinal) = (List.range' base (added.length + 1)).map some

variable {recorder : Recorder Timestamp Meta Git Item} {sessionMeta : Meta} {added : List Item}

theorem writtenLines_of_written {base : Nat} (h : Written json base sessionMeta added recorder) :
    ExactlyOnce sessionMeta base added recorder.disk.writtenLines := by
  rcases h.buffered with ⟨hsome, -⟩ | ⟨-, git, written, hwritten, hadded⟩
  · rw [h.sessionMeta] at hsome
    cases hsome
  · rw [h.pendingItems, append_nil] at hadded
    subst hadded
    refine ⟨⟨git, hwritten⟩, ?_⟩
    have hlength : recorder.disk.writtenLines.length = written.length + 1 := by
      have hlength := congrArg length hwritten
      rw [Recorder.writtenItems, length_map, length_cons, length_map] at hlength
      exact hlength
    rw [← hlength]
    exact h.numbered.ordinals

theorem readProjectionSteps_isOk_iff (hjson : json.Lawful)
    (hvalid : ∀ timestamp, (projection.timestampMillis timestamp).isSome) {base : Nat}
    (h : Written json base sessionMeta added recorder)
    (htorn : ∀ write ∈ recorder.disk.writes, write.Torn json) :
    (∃ steps, readProjectionSteps json projection subagentStart recorder.disk.bytes 0 base = .ok steps) ↔
      base + added.length + 1 < 2 ^ 64 := by
  have hlines : ∀ text ∈ recorder.disk.writes.map (LineWrite.text json), newline ∉ text := by
    intro text htext
    obtain ⟨write, -, rfl⟩ := mem_map.mp htext
    exact write.newline_notMem_text hjson
  have hbytes : recorder.disk.bytes = (recorder.disk.writes.map (LineWrite.text json)).flatMap (LineLog.terminated newline) :=
    h.clean
  have hstart : Awaits { nextOrdinal := base, nextOffset := 0, lineStartOffset := 0 } base :=
    ⟨Nat.le_refl _, Nat.le_refl _⟩
  have hfold := @foldlM_readProjectionLine _ _ _ _ _ json projection subagentStart hjson hvalid _ htorn base _
    (writtenLines_of_written h).2 _ hstart
  have hsteps : readProjectionSteps json projection subagentStart recorder.disk.bytes 0 base =
      (((recorder.disk.writes.map (LineWrite.text json)).filter (· ≠ [])).map (· ++ [newline])).foldlM
        (readProjectionLine json projection subagentStart) { nextOrdinal := base, nextOffset := 0, lineStartOffset := 0 } >>=
          fun last => .ok (last.projections, last.nextOffset) := by
    rw [readProjectionSteps, drop_zero, hbytes, LineLog.completeLines_flatMap hlines]
    rfl
  rw [hsteps]
  constructor
  · rintro ⟨steps, hok⟩
    obtain ⟨last, hlast, -⟩ := Run.bind_eq_ok.mp hok
    have hbound := hfold.mp ⟨last, hlast⟩
    omega
  · intro hbound
    obtain ⟨last, hlast⟩ := hfold.mpr (.inr (by omega))
    exact ⟨_, Run.bind_eq_ok.mpr ⟨last, hlast, rfl⟩⟩

theorem not_exactlyOnce_nil {base : Nat} :
    ¬ ExactlyOnce sessionMeta base added ([] : List (RolloutLine Timestamp Meta Git Item)) := by
  rintro ⟨⟨git, hitems⟩, -⟩
  cases hitems

/-- After a flush each item is in the file once and the file is read, exactly if no failed write has left its whole line,
ordinals are left, and there was something to write. -/
theorem flush_exactlyOnce_iff (hjson : json.Lawful)
    (hvalid : ∀ timestamp, (projection.timestampMillis timestamp).isSome = true) (subagentStart : Option Nat)
    (sessionMeta : Meta) (historyBase : Option UInt64) (environment : Nat → IoStep Timestamp Git)
    (cmds : List (RolloutCmd Item)) {flushed : Recorder Timestamp Meta Git Item}
    (hflush : flush json (rolloutWriter json cmds (Recorder.create sessionMeta historyBase environment)) = .ok () flushed) :
    (ExactlyOnce sessionMeta (historyBase.elim 0 UInt64.toNat) (cmds.flatMap RolloutCmd.items)
          (records json flushed.disk.bytes) ∧
        ∃ steps, readProjectionSteps json projection subagentStart flushed.disk.bytes 0
          (historyBase.elim 0 UInt64.toNat) = .ok steps) ↔
      (∀ write ∈ flushed.disk.writes, write.Torn json) ∧
        historyBase.elim 0 UInt64.toNat + (cmds.flatMap RolloutCmd.items).length + 1 < 2 ^ 64 ∧
        ((rolloutWriter json cmds (Recorder.create sessionMeta historyBase environment)).state.isDeferred &&
          (rolloutWriter json cmds (Recorder.create sessionMeta historyBase environment)).state.pendingItems.isEmpty) =
            false := by
  have hready := (@Ready.create _ _ _ _ _ json sessionMeta historyBase environment).rolloutWriter hjson cmds
  rw [nil_append] at hready
  obtain ⟨-, hresult⟩ := Wp.wp_ok (wp_flush hjson hready) hflush
  split at hresult
  · -- nothing was ever written
    rename_i hskip
    have hdeferred : (rolloutWriter json cmds
        (Recorder.create sessionMeta historyBase environment)).state.deferredLogFileInfo := by
      rw [Bool.and_eq_true, RolloutWriterState.isDeferred, Bool.and_eq_true] at hskip
      exact hskip.1.2
    have hwrites := (hready.deferred hdeferred).2
    have hrecords : records json flushed.disk.bytes = [] := by
      rw [hresult]
      rcases hready.readable with hclean | ⟨htorn, -⟩
      · rw [records_of_terminated hjson hclean, hwrites]
        rfl
      · rw [hwrites] at htorn
        simp at htorn
    refine iff_of_false ?_ ?_
    · rintro ⟨honce, -⟩
      rw [hrecords] at honce
      exact not_exactlyOnce_nil honce
    · rintro ⟨-, -, hfalse⟩
      rw [hskip] at hfalse
      cases hfalse
  next hskip =>
    rw [Bool.not_eq_true] at hskip
    have hrecords := records_of_terminated hjson hresult.clean
    have hwritten := writtenLines_of_written hresult
    by_cases htorn : ∀ write ∈ flushed.disk.writes, write.Torn json
    · have hsame : flushed.disk.writes.filterMap (LineWrite.complete? json) = flushed.disk.writtenLines :=
        filterMap_congr fun write hwrite => write.complete?_eq_written? (htorn write hwrite)
      rw [readProjectionSteps_isOk_iff hjson hvalid hresult htorn, hrecords, hsame]
      constructor
      · rintro ⟨-, hbound⟩
        exact ⟨htorn, hbound, hskip⟩
      · rintro ⟨-, hbound, -⟩
        exact ⟨hwritten, hbound⟩
    · refine iff_of_false ?_ fun h => htorn h.1
      rintro ⟨⟨⟨git, hitems⟩, -⟩, -⟩
      -- there are more records than items
      have hcomplete : ∃ write ∈ flushed.disk.writes, ¬ write.Torn json := by
        by_contra hnone
        exact htorn fun write hwrite => Classical.not_not.mp fun hnot => hnone ⟨write, hwrite, hnot⟩
      have hlt := length_filterMap_written?_lt hcomplete
      have hlength := congrArg List.length hitems
      have hlength' := congrArg List.length hwritten.2
      change flushed.disk.writtenLines.length < _ at hlt
      rw [← hrecords] at hlt
      rw [length_map, length_cons, length_map] at hlength
      rw [length_map, length_map, length_range'] at hlength'
      omega

/-! ## Lines as `serde_json` writes them -/

/-- Lines of one moment with the metadata of one session, and with items that say whether a message triggers a turn. -/
abbrev TriggerLine := RolloutLine Unit Unit Unit Bool

def lineHead : Str := "\x7b\"timestamp\":\"2026-11-17T00:00:00.000Z\",".toList

def ordinalKey : Str := "\"ordinal\":".toList

def ordinalText : Option Nat → Str
  | none => []
  | some ordinal => ordinalKey ++ Nat.toDigits 10 ordinal ++ [',']

/-- The metadata of a session of the command line in `/w`. -/
def metaPayload : Str :=
  "\x7b\"session_id\":\"019a8f0e-0000-7000-8000-000000000000\",\"id\":\"019a8f0e-0000-7000-8000-000000000000\",".toList ++
    "\"timestamp\":\"2026-11-17T00:00:00.000Z\",\"cwd\":\"/w\",\"originator\":\"codex_cli_rs\",".toList ++
    "\"cli_version\":\"0.0.0\",\"source\":\"cli\",\"model_provider\":null,\"base_instructions\":null,".toList ++
    "\"history_mode\":\"paginated\"\x7d".toList

def itemText : StoredItem Unit Unit Bool → Str
  | .sessionMeta _ _ => "\"type\":\"session_meta\",\"payload\":".toList ++ metaPayload ++ ['}']
  | .item trigger =>
    "\"type\":\"inter_agent_communication_metadata\",\"payload\":\x7b\"trigger_turn\":".toList ++
      (if trigger then "true\x7d\x7d".toList else "false\x7d\x7d".toList)

def lineText (line : TriggerLine) : Str := lineHead ++ ordinalText line.ordinal ++ itemText line.item

/-- The item at the beginning of a text, if there is one. -/
def readItem (text : Str) : StoredItem Unit Unit Bool :=
  if (itemText (.item true)).isPrefixOf text then .item true
  else if (itemText (.item false)).isPrefixOf text then .item false
  else .sessionMeta () ()

/-- The line at the beginning of a text, whatever is behind it. -/
def readLine (text : Str) : Option TriggerLine := do
  let rest ← Str.stripPrefix lineHead text
  match Str.stripPrefix ordinalKey rest with
  | none => return ⟨(), none, readItem rest⟩
  | some rest =>
    let digits := rest.takeWhile Char.isDigit
    return ⟨(), some (Nat.ofDigitChars 10 digits 0), readItem (rest.drop (digits.length + 1))⟩

def triggerJson : LineJson Unit Unit Unit Bool TriggerLine where
  toString line := Str.asciiBytes (lineText line)
  fromSlice bytes := (readLine (Str.asciiText bytes)).filter fun line =>
    Str.asciiBytes (lineText line) ++ [newline] = bytes
  ordinal line := line.ordinal
  fromValue line := some line

theorem readItem_append (item : StoredItem Unit Unit Bool) (rest : Str) : readItem (itemText item ++ rest) = item := by
  have hhere : (itemText item).isPrefixOf (itemText item ++ rest) := List.isPrefixOf_iff_prefix.mpr (prefix_append _ _)
  cases item with
  | sessionMeta sessionMeta git => rfl
  | item trigger =>
    cases trigger with
    | true => exact if_pos hhere
    | false =>
      have hother : (itemText (.item true)).isPrefixOf (itemText (.item false) ++ rest) = false := rfl
      rw [readItem, hother, if_neg Bool.false_ne_true]
      exact if_pos hhere

theorem readLine_append (line : TriggerLine) (rest : Str) : readLine (lineText line ++ rest) = some line := by
  obtain ⟨timestamp, ordinal, item⟩ := line
  rw [readLine, lineText, append_assoc, append_assoc, Str.stripPrefix_append]
  cases ordinal with
  | none =>
    have hkey : Str.stripPrefix ordinalKey (itemText item ++ rest) = none := by
      cases item with
      | sessionMeta sessionMeta git => rfl
      | item trigger => cases trigger <;> rfl
    simp [ordinalText, hkey, readItem_append]
  | some ordinal =>
    have hdigits : (Nat.toDigits 10 ordinal ++ ',' :: (itemText item ++ rest)).takeWhile Char.isDigit =
        Nat.toDigits 10 ordinal := by
      rw [takeWhile_append_of_pos fun c hc => Nat.isDigit_of_mem_toDigits (by decide) (by decide) hc]
      simp
    have hrest : (Nat.toDigits 10 ordinal ++ ',' :: (itemText item ++ rest)).drop
        ((Nat.toDigits 10 ordinal).length + 1) = itemText item ++ rest := by
      rw [drop_append]
      simp
    simp [ordinalText, hdigits, hrest, readItem_append, Nat.ofDigitChars_ten_toDigits]

/-- A line begins with no other line. -/
theorem eq_of_lineText_append {line line' : TriggerLine} {rest : Str} (h : lineText line = lineText line' ++ rest) :
    line = line' := by
  have hline := readLine_append line []
  rw [append_nil, h, readLine_append line' rest] at hline
  exact (Option.some.inj hline).symm

def isPrintable (c : Char) : Bool := 32 ≤ c.toNat && c.toNat < 128

theorem isPrintable_of_isDigit {c : Char} (h : c.isDigit) : isPrintable c := by
  simp only [Char.isDigit, Bool.and_eq_true, decide_eq_true_eq, ge_iff_le, UInt32.le_iff_toNat_le] at h
  obtain ⟨hlow, hhigh⟩ : 48 ≤ c.toNat ∧ c.toNat ≤ 57 := h
  simp only [isPrintable, Bool.and_eq_true, decide_eq_true_eq]
  omega

theorem isPrintable_lineText (line : TriggerLine) : ∀ c ∈ lineText line, isPrintable c := by
  rw [← all_eq_true, lineText, all_append, all_append, Bool.and_eq_true, Bool.and_eq_true]
  refine ⟨⟨by decide +kernel, ?_⟩, ?_⟩
  · cases line.ordinal with
    | none => rfl
    | some ordinal =>
      rw [ordinalText, all_append, all_append, Bool.and_eq_true, Bool.and_eq_true]
      refine ⟨⟨by decide +kernel, all_eq_true.mpr fun c hc => ?_⟩, rfl⟩
      exact isPrintable_of_isDigit (Nat.isDigit_of_mem_toDigits (by decide) (by decide) hc)
  · cases line.item with
    | sessionMeta sessionMeta git => exact (by decide +kernel : (itemText (.sessionMeta () ())).all isPrintable)
    | item trigger => cases trigger <;> decide +kernel

theorem isPrintable_iff {c : Char} : isPrintable c ↔ 32 ≤ c.toNat ∧ c.toNat < 128 := by simp [isPrintable]

theorem asciiText_lineText (line : TriggerLine) : Str.asciiText (Str.asciiBytes (lineText line)) = lineText line :=
  Str.asciiText_asciiBytes fun c hc => (isPrintable_iff.mp (isPrintable_lineText line c hc)).2

theorem triggerJson_lawful : triggerJson.Lawful where
  opens line := ⟨123, _, rfl, rfl⟩
  oneLine line hmem := by
    obtain ⟨c, hc, heq⟩ := mem_map.mp hmem
    obtain ⟨hlow, hhigh⟩ := isPrintable_iff.mp (isPrintable_lineText line c hc)
    have hvalue := congrArg UInt8.toNat heq
    rw [UInt8.toNat_ofNat_of_lt' (show c.toNat < 2 ^ 8 by omega)] at hvalue
    change c.toNat = 10 at hvalue
    omega
  parses line := by
    have htext : Str.asciiText (Str.asciiBytes (lineText line) ++ [newline]) = lineText line ++ ['\n'] := by
      rw [Str.asciiText, map_append]
      exact congrArg (· ++ _) (asciiText_lineText line)
    refine ⟨line, ?_, rfl⟩
    simp [triggerJson, htext, readLine_append]
  torn line kept hkept := by
    refine Option.eq_none_iff_forall_not_mem.mpr fun line' hline' => ?_
    obtain ⟨-, hsame⟩ := Option.mem_filter_iff.mp hline'
    have hbytes := append_cancel_right (of_decide_eq_true hsame)
    have htext := congrArg Str.asciiText hbytes
    rw [asciiText_lineText, Str.asciiText, map_take] at htext
    change lineText line' = (Str.asciiText (Str.asciiBytes (lineText line))).take kept at htext
    rw [asciiText_lineText] at htext
    -- the part of the line would be the whole line
    have hsplit : lineText line = lineText line' ++ (lineText line).drop kept := by
      rw [htext, take_append_drop]
    obtain rfl := eq_of_lineText_append hsplit
    have hlength := congrArg length hbytes
    rw [length_take] at hlength
    change kept < (Str.asciiBytes (lineText line)).length at hkept
    change (Str.asciiBytes (lineText line)).length = min kept (Str.asciiBytes (lineText line)).length at hlength
    omega

def failingOnce (operation kept : Nat) : Nat → IoStep Unit Unit := fun n =>
  ⟨(), (), if n = operation then some kept else none⟩

def triggerProjection : LineProjection Unit Unit Unit Bool where
  lacksStart _ := false
  timestampMillis _ := some 1794873600000

/-- A rollout that is materialized before two items are added; the write of the first fails after `kept` bytes. -/
def recordTriggers (kept : Nat) : Recorder Unit Unit Unit Bool :=
  rolloutWriter triggerJson [.persist, .addItems [true, false]] (Recorder.create () none (failingOnce 3 kept))

theorem flush_exactlyOnce_torn :
    ExactlyOnce () 0 [true, false] (records triggerJson (Wp.after (flush triggerJson) (recordTriggers 50)).disk.bytes) := by
  have hflush : flush triggerJson (recordTriggers 50) = .ok () (Wp.after (flush triggerJson) (recordTriggers 50)) := rfl
  have hvalid : ∀ timestamp, (triggerProjection.timestampMillis timestamp).isSome := fun _ => rfl
  have hwrites : (Wp.after (flush triggerJson) (recordTriggers 50)).disk.writes =
      [⟨⟨(), some 0, .sessionMeta () ()⟩, none⟩, ⟨⟨(), some 1, .item true⟩, some 50⟩, ⟨⟨(), some 1, .item true⟩, none⟩,
        ⟨⟨(), some 2, .item false⟩, none⟩] := rfl
  have htorn : ∀ write ∈ (Wp.after (flush triggerJson) (recordTriggers 50)).disk.writes, write.Torn triggerJson := by
    rw [hwrites]
    intro write hwrite kept hkept
    simp only [mem_cons, not_mem_nil, or_false] at hwrite
    rcases hwrite with rfl | rfl | rfl | rfl
    · cases hkept
    · obtain rfl : 50 = kept := Option.some.inj hkept
      decide +kernel
    · cases hkept
    · cases hkept
  exact ((flush_exactlyOnce_iff triggerJson_lawful hvalid none () none (failingOnce 3 50)
    [.persist, .addItems [true, false]] hflush).mpr ⟨htorn, by decide, rfl⟩).1

/-- The length of the text of the first item, without its newline. -/
def wholeText : Nat := (triggerJson.toString ⟨(), some 1, .item true⟩).length

/-- The write of an item fails when only its newline is missing. The line is terminated when the file is opened
again, the item is written once more, and the file is refused. -/
theorem flush_not_exactlyOnce :
    flush triggerJson (recordTriggers wholeText) = .ok () (Wp.after (flush triggerJson) (recordTriggers wholeText)) ∧
      (records triggerJson (Wp.after (flush triggerJson) (recordTriggers wholeText)).disk.bytes).map (·.item) =
        [.sessionMeta () (), .item true, .item true, .item false] ∧
      readProjectionSteps triggerJson triggerProjection none
        (Wp.after (flush triggerJson) (recordTriggers wholeText)).disk.bytes 0 0 = .error (.ordinalTaken 2 1) := by
  refine ⟨rfl, ?_, ?_⟩
  · decide +kernel
  · decide +kernel

end Dcode.ThreadStore
