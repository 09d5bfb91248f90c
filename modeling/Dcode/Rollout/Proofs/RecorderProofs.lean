import Dcode.Rollout.Recorder

/-!
# What the writer keeps

Every line that was written has the next ordinal, and the items that are written and those that are buffered are
together the items that were added (`Kept`). After a failure the file may end in a part of a line; it is opened again
before the next line is written, and so it is then a sequence of terminated texts (`Clean`).
-/

namespace Dcode.Rollout

open Wp List Option LineLog

variable {Timestamp Meta Git Item Value : Type}

/-! ## Lines of the file -/

def LineWrite.written? (write : LineWrite Timestamp Meta Git Item) : Option (RolloutLine Timestamp Meta Git Item) :=
  if write.failedAfter.isNone then some write.line else none

def LineWrite.text (json : LineJson Timestamp Meta Git Item Value) (write : LineWrite Timestamp Meta Git Item) : Bytes :=
  match write.failedAfter with
  | none => json.toString write.line
  | some kept => (json.toString write.line).take kept

def Disk.writtenLines (disk : Disk Timestamp Meta Git Item) : List (RolloutLine Timestamp Meta Git Item) :=
  disk.writes.filterMap LineWrite.written?

def Recorder.writtenItems (recorder : Recorder Timestamp Meta Git Item) : List (StoredItem Meta Git Item) :=
  recorder.disk.writtenLines.map (·.item)

def Clean (json : LineJson Timestamp Meta Git Item Value) (recorder : Recorder Timestamp Meta Git Item) : Prop :=
  LineLog.Terminated newline (recorder.disk.writes.map (LineWrite.text json)) recorder.disk.bytes

def Readable (json : LineJson Timestamp Meta Git Item Value) (recorder : Recorder Timestamp Meta Git Item) : Prop :=
  Clean json recorder ∨ LineLog.Torn newline (recorder.disk.writes.map (LineWrite.text json)) recorder.disk.bytes

def ordinalAfter (base count : Nat) : Option Nat := if base + count < 2 ^ 64 then some (base + count) else none

structure Numbered (base : Nat) (recorder : Recorder Timestamp Meta Git Item) : Prop where
  ordinals : recorder.disk.writtenLines.map (·.ordinal) = (List.range' base recorder.disk.writtenLines.length).map some
  ordinalState : recorder.state.ordinalState = .paginated (ordinalAfter base recorder.disk.writtenLines.length)

/-! ## One line -/

variable {json : LineJson Timestamp Meta Git Item Value}

variable {E : IoError → Recorder Timestamp Meta Git Item → Prop} {s : Recorder Timestamp Meta Git Item}

theorem wp_nextOperation {Q : IoStep Timestamp Git → Recorder Timestamp Meta Git Item → Prop} :
    wp nextOperation Q E s ↔ Q (s.disk.environment s.disk.operations)
      { s with disk := { s.disk with operations := s.disk.operations + 1 } } := Iff.rfl

variable {base : Nat}

theorem wp_currentOrdinal {Q : Option Nat → Recorder Timestamp Meta Git Item → Prop} (hs : Numbered base s)
    (hQ : base + s.disk.writtenLines.length < 2 ^ 64 → Q (some (base + s.disk.writtenLines.length)) s)
    (hE : E .ordinalOverflow s) : wp currentOrdinal Q E s := by
  unfold wp currentOrdinal
  rw [hs.ordinalState, ordinalAfter]
  by_cases hbound : base + s.disk.writtenLines.length < 2 ^ 64
  · rw [if_pos hbound]
    exact hQ hbound
  · rw [if_neg hbound]
    exact hE

theorem wp_writeRolloutItem {Q : Unit → Recorder Timestamp Meta Git Item → Prop} (item : Git → StoredItem Meta Git Item)
    (ordinal : Option Nat)
    (hQ : ∀ timestamp git operations, Q () (appendLine ⟨timestamp, ordinal, item git⟩ none
      (json.toString ⟨timestamp, ordinal, item git⟩ ++ [newline]) { s with disk := { s.disk with operations := operations } }))
    (hE : ∀ timestamp git operations kept, E .failed (appendLine ⟨timestamp, ordinal, item git⟩ (some kept)
      ((json.toString ⟨timestamp, ordinal, item git⟩ ++ [newline]).take kept)
      { s with disk := { s.disk with operations := operations } })) :
    wp (writeRolloutItem json item ordinal) Q E s := by
  unfold writeRolloutItem
  rw [wp_bind, wp_nextOperation]
  cases (s.disk.environment s.disk.operations).failedAfter with
  | none => exact hQ _ _ _
  | some kept => exact hE _ _ _ kept

theorem writtenLines_append (disk : Disk Timestamp Meta Git Item) (write : LineWrite Timestamp Meta Git Item) (bytes : Bytes)
    (operations : Nat) :
    Disk.writtenLines { disk with bytes := bytes, operations := operations, writes := disk.writes ++ [write] } =
      disk.writtenLines ++ write.written?.toList := by
  simp only [Disk.writtenLines]
  cases h : write.written? with
  | none => simp [h]
  | some line => simp [h]

/-- The next line is written with the next ordinal, or nothing is written that counts. -/
theorem wp_writeNext (hjson : json.Lawful) (hs : Numbered base s) (hclean : Clean json s)
    (item : Git → StoredItem Meta Git Item) :
    wp (writeNext json item)
      (fun _ t => Numbered base t ∧ Clean json t ∧ (∃ git, t.writtenItems = s.writtenItems ++ [item git]) ∧
        ∃ ordinalState, t.state = { s.state with ordinalState })
      (fun _ t => Numbered base t ∧ Readable json t ∧ t.writtenItems = s.writtenItems ∧
        ∃ ordinalState, t.state = { s.state with ordinalState }) s := by
  have hne : ∀ line, json.toString line ≠ [] := by
    intro line heq
    obtain ⟨b, rest, htext, -⟩ := hjson.opens line
    rw [heq] at htext
    cases htext
  unfold writeNext
  rw [wp_bind]
  refine wp_currentOrdinal hs ?_ ⟨hs, .inl hclean, rfl, _, rfl⟩
  intro hbound
  rw [wp_bind]
  refine wp_writeRolloutItem item _ ?_ ?_
  · intro timestamp git operations
    refine ⟨⟨?_, ?_⟩, ?_, ⟨git, ?_⟩, _, rfl⟩
    · simp [appendLine, writtenLines_append, LineWrite.written?, map_append, range'_concat, hs.ordinals]
    · simp only [appendLine, writtenLines_append, if_true, length_append, hs.ordinalState, ordinalAfter, hbound]
      rfl
    · simp only [Clean, appendLine, map_append]
      exact Terminated.append hclean (hne _)
    · simp [Recorder.writtenItems, appendLine, writtenLines_append, LineWrite.written?, map_append]
  · intro timestamp git operations kept
    refine ⟨⟨?_, ?_⟩, ?_, ?_, _, rfl⟩
    · simp [appendLine, writtenLines_append, LineWrite.written?, append_nil, hs.ordinals]
    · simp only [appendLine, writtenLines_append, LineWrite.written?, isNone_some, Bool.false_eq_true, if_false,
        toList_none, append_nil, hs.ordinalState]
    · simp only [Readable, Clean, appendLine, map_append]
      exact Terminated.append_take hclean (hne _) (hjson.oneLine _) kept
    · simp only [Recorder.writtenItems, appendLine, writtenLines_append, LineWrite.written?, isNone_some,
        Bool.false_eq_true, if_false, toList_none, append_nil]

theorem wp_writeItems (hjson : json.Lawful) (items : List Item) (hs : Numbered base s) (hclean : Clean json s) :
    wp (writeItems json items) (fun result t => Numbered base t ∧ Readable json t ∧
        t.writtenItems = s.writtenItems ++ (items.take result.1).map .item ∧
        (∃ ordinalState, t.state = { s.state with ordinalState }) ∧
        (result.2 = .ok () → items.length ≤ result.1 ∧ Clean json t))
      (fun _ _ => False) s := by
  induction items generalizing s with
  | nil =>
    refine ⟨hs, .inl hclean, ?_, ⟨_, rfl⟩, fun _ => ⟨Nat.le_refl 0, hclean⟩⟩
    rw [take_nil, map_nil, append_nil]
  | cons item items ih =>
    unfold writeItems
    rw [wp_bind, wp_attempt]
    refine wp_mono (wp_writeNext hjson hs hclean fun _ => .item item) ?_ ?_
    · rintro _ t ⟨ht, htclean, ⟨_, hitems⟩, _, hstate⟩
      refine wp_seq (ih ht htclean) ?_
      rintro ⟨count, result⟩ u ⟨hu, hreadable, hitems', ⟨ordinalState, hstate'⟩, hdone⟩
      refine ⟨hu, hreadable, ?_, ⟨ordinalState, ?_⟩, ?_⟩
      · rw [hitems', hitems, take_succ_cons, map_cons, append_assoc, singleton_append]
      · rw [hstate', hstate]
      · intro hok
        obtain ⟨hcount, huclean⟩ := hdone hok
        exact ⟨Nat.succ_le_succ hcount, huclean⟩
    · rintro err t ⟨ht, hreadable, hitems, hstate⟩
      refine ⟨ht, hreadable, ?_, hstate, fun hok => by cases hok⟩
      rw [hitems, take_zero, map_nil, append_nil]

/-! ## What is kept -/

/-- What is written and what is buffered is what was added: nothing is written yet, or the metadata is written first. -/
def Buffered (sessionMeta : Meta) (added : List Item) (recorder : Recorder Timestamp Meta Git Item) : Prop :=
  (recorder.state.sessionMeta = some sessionMeta ∧ recorder.writtenItems = [] ∧ recorder.state.pendingItems = added) ∨
    (recorder.state.sessionMeta = none ∧ ∃ git written,
      recorder.writtenItems = .sessionMeta sessionMeta git :: written.map .item ∧
        written ++ recorder.state.pendingItems = added)

section

variable (json) (base : Nat) (sessionMeta : Meta) (added : List Item) (recorder : Recorder Timestamp Meta Git Item)

structure Kept : Prop where
  numbered : Numbered base recorder
  readable : Readable json recorder
  buffered : Buffered sessionMeta added recorder
  deferred : recorder.state.deferredLogFileInfo → recorder.state.writer = false ∧ recorder.disk.writes = []

structure Ready : Prop extends Kept json base sessionMeta added recorder where
  clean : recorder.state.writer → Clean json recorder

structure Opened : Prop extends Kept json base sessionMeta added recorder where
  clean : Clean json recorder
  writer : recorder.state.writer

structure Written : Prop extends Opened json base sessionMeta added recorder where
  sessionMeta : recorder.state.sessionMeta = none
  pendingItems : recorder.state.pendingItems = []

end

section Writer

variable {sessionMeta : Meta} {added : List Item} {t : Recorder Timestamp Meta Git Item}

/-- An open writer does not create the file later. -/
theorem Opened.deferred_of_eq (h : Opened json base sessionMeta added s)
    (heq : t.state.deferredLogFileInfo = s.state.deferredLogFileInfo) (hdeferred : t.state.deferredLogFileInfo) :
    t.state.writer = false ∧ t.disk.writes = [] := by
  rw [heq] at hdeferred
  have hwriter := (h.deferred hdeferred).1
  rw [h.writer] at hwriter
  cases hwriter

theorem wp_openLogFile (h : Kept json base sessionMeta added s) : wp openLogFile
      (fun _ t => Kept json base sessionMeta added t ∧ Clean json t ∧ t.state = s.state)
      (fun _ t => Kept json base sessionMeta added t) s := by
  have hrepaired : ∀ operations : Nat, Clean json (ensureRolloutIsNewlineTerminated
      { s with disk := { s.disk with operations := operations } }) := by
    intro operations
    rcases h.readable with hclean | htorn
    · exact ensureTerminated_of_terminated hclean
    · exact ensureTerminated_of_torn htorn
  have hkept : ∀ operations : Nat, Kept json base sessionMeta added (ensureRolloutIsNewlineTerminated
      { s with disk := { s.disk with operations := operations } }) := fun operations =>
    ⟨⟨h.numbered.ordinals, h.numbered.ordinalState⟩, .inl (hrepaired operations), h.buffered, h.deferred⟩
  unfold openLogFile
  rw [wp_bind, wp_nextOperation]
  cases (s.disk.environment s.disk.operations).failedAfter with
  | none => exact ⟨hkept _, hrepaired _, rfl⟩
  | some kept =>
    cases kept with
    | zero => exact ⟨⟨h.numbered.ordinals, h.numbered.ordinalState⟩, h.readable, h.buffered, h.deferred⟩
    | succ kept => exact hkept _

theorem wp_ensureWriterOpen (h : Ready json base sessionMeta added s) : wp ensureWriterOpen
      (fun _ t => Opened json base sessionMeta added t) (fun _ t => Kept json base sessionMeta added t) s := by
  unfold ensureWriterOpen
  rw [wp_bind, wp_get]
  cases hwriter : s.state.writer with
  | true => exact ⟨h.toKept, h.clean hwriter, hwriter⟩
  | false =>
    refine wp_seq (wp_openLogFile h.toKept) ?_
    rintro _ t ⟨ht, hclean, -⟩
    refine ⟨⟨⟨ht.numbered.ordinals, ht.numbered.ordinalState⟩, ht.readable, ht.buffered, ?_⟩, hclean, rfl⟩
    intro hdeferred
    cases hdeferred

theorem wp_writeSessionMetaIfNeeded (hjson : json.Lawful) (h : Opened json base sessionMeta added s) :
    wp (writeSessionMetaIfNeeded json) (fun _ t => Opened json base sessionMeta added t ∧ t.state.sessionMeta = none)
      (fun _ t => Kept json base sessionMeta added t) s := by
  unfold writeSessionMetaIfNeeded
  rw [wp_bind, wp_get]
  rcases h.buffered with ⟨hmeta, hwritten, hpending⟩ | ⟨hmeta, hwritten⟩
  · simp only [hmeta, writeSessionMeta]
    rw [wp_bind, wp_bind, wp_get, if_pos h.writer]
    refine wp_mono (wp_writeNext hjson h.numbered h.clean (.sessionMeta sessionMeta)) ?_ ?_
    · rintro _ ⟨state, disk⟩ ⟨ht, hclean, ⟨git, hitems⟩, _, hstate⟩
      obtain rfl : state = _ := hstate
      rw [hwritten] at hitems
      exact ⟨⟨⟨⟨ht.ordinals, ht.ordinalState⟩, .inl hclean, .inr ⟨rfl, git, [], hitems, hpending⟩, h.deferred_of_eq rfl⟩,
        hclean, h.writer⟩, rfl⟩
    · rintro err ⟨state, disk⟩ ⟨ht, hreadable, hitems, _, hstate⟩
      obtain rfl : state = _ := hstate
      exact ⟨ht, hreadable, .inl ⟨hmeta, hitems.trans hwritten, hpending⟩, h.deferred_of_eq rfl⟩
  · simp only [hmeta]
    exact ⟨h, hmeta⟩

theorem wp_writePendingItemsOnce (hjson : json.Lawful) (h : Opened json base sessionMeta added s)
    (hmeta : s.state.sessionMeta = none) :
    wp (writePendingItemsOnce json)
      (fun _ t => Written json base sessionMeta added t) (fun _ t => Kept json base sessionMeta added t) s := by
  obtain ⟨git, written, hwritten, hadded⟩ : ∃ git written,
      s.writtenItems = .sessionMeta sessionMeta git :: written.map .item ∧ written ++ s.state.pendingItems = added := by
    rcases h.buffered with ⟨hsome, -⟩ | ⟨-, hwritten⟩
    · rw [hmeta] at hsome
      cases hsome
    · exact hwritten
  unfold writePendingItemsOnce
  rw [wp_bind, wp_get, if_pos h.writer]
  refine wp_seq (wp_writeItems hjson s.state.pendingItems h.numbered h.clean) ?_
  rintro ⟨count, result⟩ ⟨state, disk⟩ ⟨ht, hreadable, hitems, ⟨ordinalState, hstate⟩, hdone⟩
  obtain rfl : state = _ := hstate
  have hkept : Kept json base sessionMeta added
      ⟨{ s.state with ordinalState, pendingItems := s.state.pendingItems.drop count }, disk⟩ := by
    refine ⟨⟨ht.ordinals, ht.ordinalState⟩, hreadable,
      .inr ⟨hmeta, git, written ++ s.state.pendingItems.take count, ?_, ?_⟩, h.deferred_of_eq rfl⟩
    · rw [map_append, ← cons_append, ← hwritten]
      exact hitems
    · rw [append_assoc, take_append_drop, hadded]
  cases result with
  | error err => exact hkept
  | ok value =>
    obtain ⟨hcount, hclean⟩ := hdone rfl
    exact ⟨⟨hkept, hclean, h.writer⟩, hmeta, List.drop_eq_nil_iff.mpr hcount⟩

theorem wp_flushFile (h : Written json base sessionMeta added s) : wp flushFile
      (fun _ t => Written json base sessionMeta added t) (fun _ t => Kept json base sessionMeta added t) s := by
  have hsame : ∀ operations : Nat, Written json base sessionMeta added
      { s with disk := { s.disk with operations := operations } } := fun operations =>
    ⟨⟨⟨⟨h.numbered.ordinals, h.numbered.ordinalState⟩, h.readable, h.buffered, h.deferred⟩, h.clean, h.writer⟩,
      h.sessionMeta, h.pendingItems⟩
  unfold flushFile
  rw [wp_bind, wp_nextOperation]
  cases (s.disk.environment s.disk.operations).failedAfter with
  | none => exact hsame _
  | some kept => exact (hsame _).toKept

theorem wp_writePendingOnce (hjson : json.Lawful) (h : Ready json base sessionMeta added s) : wp (writePendingOnce json)
      (fun _ t => Written json base sessionMeta added t) (fun _ t => Kept json base sessionMeta added t) s := by
  refine wp_seq (wp_ensureWriterOpen h) ?_
  intro _ t ht
  refine wp_seq (wp_writeSessionMetaIfNeeded hjson ht) ?_
  rintro _ u ⟨hu, hmeta⟩
  refine wp_seq (wp_writePendingItemsOnce hjson hu hmeta) ?_
  intro _ v hv
  exact wp_flushFile hv

theorem Kept.enterRecoveryMode (h : Kept json base sessionMeta added s) :
    Ready json base sessionMeta added (enterRecoveryMode s) := by
  refine ⟨⟨⟨h.numbered.ordinals, h.numbered.ordinalState⟩, h.readable, h.buffered, ?_⟩, ?_⟩
  · intro hdeferred
    exact ⟨rfl, (h.deferred hdeferred).2⟩
  · intro hwriter
    cases hwriter

theorem Written.ready (h : Written json base sessionMeta added s) : Ready json base sessionMeta added s :=
  ⟨h.toKept, fun _ => h.clean⟩

theorem wp_writePendingWithRecovery (hjson : json.Lawful) (h : Ready json base sessionMeta added s) :
    wp (writePendingWithRecovery json)
      (fun _ t => Written json base sessionMeta added t) (fun _ t => Ready json base sessionMeta added t) s := by
  have honce : ∀ {t : Recorder Timestamp Meta Git Item}, Ready json base sessionMeta added t →
      wp (onError enterRecoveryMode (writePendingOnce json))
        (fun _ u => Written json base sessionMeta added u) (fun _ u => Ready json base sessionMeta added u) t := by
    intro t ht
    rw [wp_onError]
    exact wp_mono (wp_writePendingOnce hjson ht) (fun _ _ hu => hu) fun _ _ hu => hu.enterRecoveryMode
  unfold writePendingWithRecovery
  rw [wp_bind, wp_attempt]
  refine wp_mono (honce h) ?_ ?_
  · intro _ t ht
    exact ht
  · intro _ t ht
    exact honce ht

/-- A flush that does nothing, or writes everything. -/
theorem wp_flush (hjson : json.Lawful) (h : Ready json base sessionMeta added s) : wp (flush json)
      (fun _ t => Ready json base sessionMeta added t ∧
        if s.state.isDeferred && s.state.pendingItems.isEmpty then t = s else Written json base sessionMeta added t)
      (fun _ t => Ready json base sessionMeta added t) s := by
  unfold flush
  rw [wp_bind, wp_get]
  split
  · exact ⟨h, rfl⟩
  · exact wp_mono (wp_writePendingWithRecovery hjson h) (fun _ t ht => ⟨ht.ready, ht⟩) fun _ _ ht => ht

/-! ## Commands -/

theorem Ready.addItems (h : Ready json base sessionMeta added s) (items : List Item) :
    Ready json base sessionMeta (added ++ items)
      { s with state := { s.state with pendingItems := s.state.pendingItems ++ items } } := by
  refine ⟨⟨⟨h.numbered.ordinals, h.numbered.ordinalState⟩, h.readable, ?_, h.deferred⟩, h.clean⟩
  rcases h.buffered with ⟨hmeta, hwritten, hpending⟩ | ⟨hmeta, git, written, hwritten, hadded⟩
  · refine .inl ⟨hmeta, hwritten, ?_⟩
    rw [← hpending]
  · refine .inr ⟨hmeta, git, written, hwritten, ?_⟩
    rw [← hadded, append_assoc]

theorem Ready.handleCmd (hjson : json.Lawful) (h : Ready json base sessionMeta added s) (cmd : RolloutCmd Item) :
    Ready json base sessionMeta (added ++ cmd.items) (handleCmd json s cmd) := by
  cases cmd with
  | addItems items =>
    have hadd := h.addItems items
    apply wp_after
    unfold flushIfMaterialized
    rw [wp_bind, wp_get]
    split
    · exact hadd
    · rw [wp_onError]
      exact wp_mono (wp_flush hjson hadd) (fun _ _ ht => ht.1) fun _ _ ht => ht.toKept.enterRecoveryMode
  | persist =>
    rw [RolloutCmd.items, append_nil]
    apply wp_after
    exact wp_mono (wp_writePendingWithRecovery hjson h) (fun _ _ ht => ht.ready) fun _ _ ht => ht
  | flush =>
    rw [RolloutCmd.items, append_nil]
    apply wp_after
    exact wp_mono (wp_flush hjson h) (fun _ _ ht => ht.1) fun _ _ ht => ht

theorem Ready.rolloutWriter (hjson : json.Lawful) (h : Ready json base sessionMeta added s)
    (cmds : List (RolloutCmd Item)) :
    Ready json base sessionMeta (added ++ cmds.flatMap RolloutCmd.items) (rolloutWriter json cmds s) := by
  induction cmds generalizing s added with
  | nil =>
    rw [flatMap_nil, append_nil]
    exact h
  | cons cmd cmds ih =>
    rw [flatMap_cons, ← append_assoc]
    exact ih (h.handleCmd hjson cmd)

theorem Ready.create (historyBase : Option UInt64) (environment : Nat → IoStep Timestamp Git) :
    Ready json (historyBase.elim 0 UInt64.toNat) sessionMeta []
      (Recorder.create sessionMeta historyBase environment : Recorder Timestamp Meta Git Item) := by
  have hbound : historyBase.elim 0 UInt64.toNat < 2 ^ 64 := by
    cases historyBase with
    | none => decide
    | some base => exact base.toNat_lt
  refine ⟨⟨⟨rfl, ?_⟩, .inl rfl, .inl ⟨rfl, rfl, rfl⟩, fun _ => ⟨rfl, rfl⟩⟩, fun hwriter => by cases hwriter⟩
  change RolloutOrdinalState.paginated _ = .paginated (ordinalAfter _ 0)
  rw [ordinalAfter, Nat.add_zero, if_pos hbound]

end Writer

/-! ## What is read back -/

/-- A write that failed has left only a proper part of its line. -/
def LineWrite.Torn (json : LineJson Timestamp Meta Git Item Value) (write : LineWrite Timestamp Meta Git Item) : Prop :=
  ∀ kept, write.failedAfter = some kept → kept < (json.toString write.line).length

def LineWrite.complete? (json : LineJson Timestamp Meta Git Item Value) (write : LineWrite Timestamp Meta Git Item) :
    Option (RolloutLine Timestamp Meta Git Item) :=
  if (json.toString write.line).length ≤ (write.text json).length then some write.line else none

theorem LineWrite.newline_notMem_text (hjson : json.Lawful) (write : LineWrite Timestamp Meta Git Item) :
    newline ∉ write.text json := by
  rw [text]
  cases write.failedAfter with
  | none => exact hjson.oneLine write.line
  | some kept => exact fun hmem => hjson.oneLine write.line (mem_of_mem_take hmem)

/-- A text that is shorter than its line is no record, and a whole line is one. -/
theorem LineWrite.parse_text (hjson : json.Lawful) (write : LineWrite Timestamp Meta Git Item) :
    (json.fromSlice (write.text json ++ [newline])).bind json.fromValue = write.complete? json := by
  have hwhole : (json.fromSlice (json.toString write.line ++ [newline])).bind json.fromValue = some write.line := by
    obtain ⟨value, hvalue, hline⟩ := hjson.parses write.line
    rw [hvalue]
    exact hline
  rw [complete?, text]
  cases write.failedAfter with
  | none =>
    rw [if_pos (Nat.le_refl _)]
    exact hwhole
  | some kept =>
    dsimp only
    rw [length_take]
    by_cases hkept : kept < (json.toString write.line).length
    · rw [if_neg (by omega), hjson.torn write.line kept hkept]
      rfl
    · rw [if_pos (by omega), take_of_length_le (by omega)]
      exact hwhole

variable {write : LineWrite Timestamp Meta Git Item}

theorem LineWrite.complete?_of_text_eq_nil (hjson : json.Lawful) (h : write.text json = []) :
    write.complete? json = none := by
  obtain ⟨b, rest, htext, -⟩ := hjson.opens write.line
  rw [complete?, h, htext]
  exact if_neg (by simp)

/-- The records of a file of terminated texts are the lines that are in it as a whole. -/
theorem records_of_terminated (hjson : json.Lawful) {writes : List (LineWrite Timestamp Meta Git Item)} {bytes : Bytes}
    (h : Terminated newline (writes.map (LineWrite.text json)) bytes) :
    records json bytes = writes.filterMap (LineWrite.complete? json) := by
  have hlines : ∀ text ∈ writes.map (LineWrite.text json), newline ∉ text := by
    intro text htext
    obtain ⟨write, -, rfl⟩ := List.mem_map.mp htext
    exact write.newline_notMem_text hjson
  rw [records, h, completeLines_flatMap hlines]
  clear h hlines
  induction writes with
  | nil => rfl
  | cons write writes ih =>
    rw [map_cons, filter_cons, filterMap_cons]
    by_cases hnil : write.text json = []
    · rw [write.complete?_of_text_eq_nil hjson hnil]
      simp only [hnil]
      exact ih
    · simp only [ne_eq, hnil, not_false_eq_true, decide_true, if_true, map_cons, filterMap_cons,
        write.parse_text hjson, ih]

theorem LineWrite.complete?_eq_written? (h : write.Torn json) : write.complete? json = write.written? := by
  rw [complete?, written?, text]
  cases hfailed : write.failedAfter with
  | none => exact if_pos (Nat.le_refl _)
  | some kept =>
    have hkept := h kept hfailed
    rw [length_take, if_neg (by omega)]
    rfl

theorem LineWrite.complete?_of_written? {line : RolloutLine Timestamp Meta Git Item} (h : write.written? = some line) :
    write.complete? json = some line := by
  rw [written?] at h
  cases hfailed : write.failedAfter with
  | none =>
    rw [hfailed] at h
    rw [complete?, text, hfailed]
    exact (if_pos (Nat.le_refl _)).trans h
  | some kept =>
    rw [hfailed] at h
    cases h

/-- A failed write that has left the whole line makes one record too many. -/
theorem length_filterMap_written?_lt {writes : List (LineWrite Timestamp Meta Git Item)}
    (h : ∃ write ∈ writes, ¬ write.Torn json) :
    (writes.filterMap LineWrite.written?).length < (writes.filterMap (LineWrite.complete? json)).length := by
  have hle : ∀ rest : List (LineWrite Timestamp Meta Git Item),
      (rest.filterMap LineWrite.written?).length ≤ (rest.filterMap (LineWrite.complete? json)).length := by
    intro rest
    rw [length_filterMap_eq_countP, length_filterMap_eq_countP]
    apply countP_mono_left
    intro write _ hwritten
    obtain ⟨line, hline⟩ := Option.isSome_iff_exists.mp hwritten
    rw [write.complete?_of_written? hline]
    rfl
  obtain ⟨write, hwrite, htorn⟩ := h
  obtain ⟨before, after, rfl⟩ := append_of_mem hwrite
  rw [LineWrite.Torn, not_forall] at htorn
  obtain ⟨kept, hkept⟩ := htorn
  rw [Classical.not_imp] at hkept
  have hwritten : write.written? = none := by
    rw [LineWrite.written?, hkept.1]
    rfl
  have hcomplete : write.complete? json = some write.line := by
    rw [LineWrite.complete?, LineWrite.text, hkept.1]
    rw [length_take]
    exact if_pos (by omega)
  have hbefore := hle before
  have hafter := hle after
  rw [filterMap_append, filterMap_append, filterMap_cons_none hwritten, filterMap_cons_some hcomplete,
    length_append, length_append, length_cons]
  omega

end Dcode.Rollout
