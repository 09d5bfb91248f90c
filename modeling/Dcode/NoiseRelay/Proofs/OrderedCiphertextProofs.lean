import Dcode.NoiseRelay.OrderedCiphertext

/-!
# Every record once and in order

A call keeps what holds between calls (`Run.Ordered.call`): the loop of `push` keeps the part of it that does not say that
the expected number is missing (`Releasing`), and stops where it is.
-/

namespace Dcode.NoiseRelay

open List SortedAssoc OrderedCiphertextFrames Option Nat UInt32

open SortedAssoc (get insert remove)

/-! ## The loop -/

structure Releasing (run : Run) : Prop where
  accepted : ∀ seq < run.frames.nextSeq, run.accepted.lookup seq ≠ none
  released : run.released.map some = (List.range run.frames.nextSeq).map fun seq => run.accepted.lookup seq
  sorted : SortedAssoc.Sorted run.frames.pending
  pending : ∀ seq, get seq run.frames.pending = if run.frames.nextSeq ≤ seq then run.accepted.lookup seq else none
  window : ∀ record ∈ run.frames.pending, record.1 ≤ run.frames.nextSeq + maxReorderDistance
  pending_le : ∀ record ∈ run.frames.pending, record.1 ≤ maxSeq
  pendingBytes : run.frames.pendingBytes = (run.frames.pending.map fun record => record.2.length).sum
  pendingBytes_le : run.frames.pendingBytes ≤ maxPendingBytes
  nextSeq_le : run.frames.nextSeq ≤ maxSeq

variable {run : Run}

theorem Releasing.get_nextSeq (h : Releasing run) :
    get run.frames.nextSeq run.frames.pending = run.accepted.lookup run.frames.nextSeq :=
  (h.pending _).trans (if_pos le_rfl)

/-- The loop stops where the expected number is not buffered. -/
theorem Releasing.ordered (h : Releasing run) (hnone : get run.frames.nextSeq run.frames.pending = none) :
    run.Ordered where
  least := by
    refine ⟨h.get_nextSeq.symm.trans hnone, fun seq hseq => ?_⟩
    by_contra hlt
    exact h.accepted seq (not_le.mp hlt) hseq
  released := h.released
  sorted := h.sorted
  pending seq := by
    rw [h.pending]
    rcases lt_trichotomy run.frames.nextSeq seq with hlt | heq | hgt
    · rw [if_pos hlt.le, if_pos hlt]
    · subst heq
      rw [if_pos le_rfl, if_neg (lt_irrefl _), ← h.get_nextSeq, hnone]
    · rw [if_neg (by omega), if_neg (by omega)]
  window := h.window
  pending_le := h.pending_le
  pendingBytes := h.pendingBytes
  pendingBytes_le := h.pendingBytes_le
  nextSeq_le := h.nextSeq_le

def OrderedCiphertextFrames.next (self : OrderedCiphertextFrames) (payload : Bytes) : OrderedCiphertextFrames :=
  { self.removeNext payload with nextSeq := self.nextSeq + 1 }

variable {payload : Bytes}

theorem Releasing.next (h : Releasing run) (hsome : get run.frames.nextSeq run.frames.pending = some payload)
    (hadvance : run.frames.nextSeq + 1 ≤ maxSeq) :
    Releasing { run with
        frames := run.frames.next payload
        released := run.released ++ [payload] } := by
  have hlookup := h.get_nextSeq.symm.trans hsome
  have hsum := ((h.sorted.perm_remove hsome).map fun record => record.2.length).sum_eq
  have hbytes := h.pendingBytes
  refine ⟨fun seq hseq => ?_, ?_, h.sorted.remove _, fun seq => ?_, fun record hrecord => ?_,
    fun record hrecord => h.pending_le record (mem_of_mem_filter hrecord), ?_, ?_, hadvance⟩
  · rcases Nat.lt_succ_iff_lt_or_eq.mp hseq with hlt | rfl
    · exact h.accepted seq hlt
    · rw [hlookup]
      exact some_ne_none payload
  · show (run.released ++ [payload]).map some = (range (run.frames.nextSeq + 1)).map _
    simp [h.released, range_succ, hlookup]
  · show get seq (remove run.frames.nextSeq run.frames.pending) =
      if run.frames.nextSeq + 1 ≤ seq then run.accepted.lookup seq else none
    rw [get_remove, h.pending]
    rcases Nat.lt_trichotomy run.frames.nextSeq seq with hlt | heq | hgt
    · rw [if_neg (by omega), if_pos hlt.le, if_pos (Nat.succ_le_of_lt hlt)]
    · rw [if_pos heq.symm, if_neg (by omega)]
    · rw [if_neg (by omega), if_neg (by omega), if_neg (by omega)]
  · have hwindow := h.window record (mem_of_mem_filter hrecord)
    show record.1 ≤ run.frames.nextSeq + 1 + maxReorderDistance
    omega
  · show run.frames.pendingBytes - payload.length = _
    rw [hbytes, hsum]
    exact Nat.add_sub_cancel_left _ _
  · have hle := h.pendingBytes_le
    show run.frames.pendingBytes - payload.length ≤ maxPendingBytes
    omega

variable {self : OrderedCiphertextFrames}

theorem advance_ok (h : self.nextSeq + 1 ≤ maxSeq) : self.advance = .ok { self with nextSeq := self.nextSeq + 1 } :=
  if_pos h

theorem advance_error (h : ¬ self.nextSeq + 1 ≤ maxSeq) : self.advance = .error exhausted := if_neg h

theorem release_none (hnone : get self.nextSeq self.pending = none) (ready : List Bytes) :
    self.release ready = (self, .ok ready) := by
  rw [OrderedCiphertextFrames.release]
  split
  · rfl
  next hsome =>
    rw [hnone] at hsome
    cases hsome

section

variable (hsome : get self.nextSeq self.pending = some payload) (ready : List Bytes)

include hsome

theorem release_of_get : self.release ready = match (self.removeNext payload).advance with
    | .error error => (self.removeNext payload, .error error)
    | .ok advanced => advanced.release (ready ++ [payload]) := by
  rw [OrderedCiphertextFrames.release]
  split
  next hnone =>
    rw [hnone] at hsome
    cases hsome
  next payload' hsome' =>
    obtain rfl := Option.some.inj (hsome'.symm.trans hsome)
    split
    next error herror => rw [herror]
    next advanced hadvanced => rw [hadvanced]

theorem release_some (hadvance : self.nextSeq + 1 ≤ maxSeq) :
    self.release ready = (self.next payload).release (ready ++ [payload]) := by
  have hok : (self.removeNext payload).advance = .ok (self.next payload) := advance_ok hadvance
  rw [release_of_get hsome, hok]

theorem release_exhausted (hadvance : ¬ self.nextSeq + 1 ≤ maxSeq) :
    self.release ready = (self.removeNext payload, .error exhausted) := by
  have herror : (self.removeNext payload).advance = _ := advance_error hadvance
  rw [release_of_get hsome, herror]

end

/-- The last number is the only one that is buffered when it is expected, so removing it drains the frames. -/
theorem Releasing.removeNext_last (h : Releasing run) (hlast : run.frames.nextSeq = maxSeq)
    (hsome : get run.frames.nextSeq run.frames.pending = some payload) :
    run.frames.removeNext payload = { nextSeq := maxSeq } := by
  have hempty : remove run.frames.nextSeq run.frames.pending = [] := by
    refine eq_nil_iff_forall_not_mem.mpr fun record hrecord => ?_
    obtain ⟨hmem, hne⟩ : record ∈ run.frames.pending ∧ record.1 ≠ run.frames.nextSeq := by
      simpa [remove] using hrecord
    have hget := h.pending record.1
    rw [h.sorted.get_of_mem hmem] at hget
    have hle := h.pending_le record hmem
    split at hget
    next => omega
    next => cases hget
  have hsum := ((h.sorted.perm_remove hsome).map fun record => record.2.length).sum_eq
  rw [hempty] at hsum
  have hbytes : run.frames.pendingBytes - payload.length = 0 := by
    rw [h.pendingBytes, hsum]
    simp
  rw [removeNext, hempty, hbytes, hlast]

/-- What the loop leaves: the records it released behind what was ready, or nothing but an error when it ran out of
numbers. -/
theorem Releasing.release (h : Releasing run) (ready : List Bytes) :
    (∃ more, (run.frames.release ready).2 = .ok (ready ++ more) ∧
      Run.Ordered ⟨(run.frames.release ready).1, run.accepted, run.released ++ more⟩) ∨
    run.frames.release ready = ({ nextSeq := maxSeq }, .error exhausted) ∧
      ∀ seq, run.frames.nextSeq ≤ seq → seq ≤ maxSeq → (get seq run.frames.pending).isSome := by
  induction hlen : maxSeq - run.frames.nextSeq using Nat.strong_induction_on generalizing run ready with
  | _ n ih =>
    cases hget : get run.frames.nextSeq run.frames.pending with
    | none =>
      rw [release_none hget]
      refine .inl ⟨[], ?_, ?_⟩
      · rw [append_nil]
      · rw [append_nil]
        exact h.ordered hget
    | some payload =>
      by_cases hadvance : run.frames.nextSeq + 1 ≤ maxSeq
      · have hnext := h.next hget hadvance
        have hless : maxSeq - (run.frames.next payload).nextSeq < n := by
          show maxSeq - (run.frames.nextSeq + 1) < n
          omega
        rw [release_some hget _ hadvance]
        rcases ih _ hless hnext (ready ++ [payload]) rfl with ⟨more, hok, hordered⟩ | ⟨herror, hall⟩
        · refine .inl ⟨payload :: more, ?_, ?_⟩
          · rw [hok, append_assoc]
            rfl
          · rw [append_assoc] at hordered
            exact hordered
        · refine .inr ⟨herror, fun seq hle hmax => ?_⟩
          rcases Nat.eq_or_lt_of_le hle with rfl | hlt
          · rw [hget]
            rfl
          · have hlater := hall seq hlt hmax
            have hremove : get seq (run.frames.next payload).pending = get seq run.frames.pending := by
              refine (get_remove _ _ _).trans (if_neg ?_)
              omega
            rw [← hremove]
            exact hlater
      · rw [release_exhausted hget _ hadvance]
        have hle := h.nextSeq_le
        have hlast : run.frames.nextSeq = maxSeq := by omega
        refine .inr ⟨by rw [h.removeNext_last hlast hget], fun seq hseq hmax => ?_⟩
        · obtain rfl : seq = run.frames.nextSeq := by omega
          rw [hget]
          rfl

/-! ## Calls -/

variable {seq : Nat}

/-- What was accepted stays the first of its number. -/
theorem lookup_concat (accepted : List (Nat × Bytes)) (seq : Nat) (payload : Bytes) (n : Nat) :
    (accepted ++ [(seq, payload)]).lookup n = (accepted.lookup n).or (if n = seq then some payload else none) := by
  by_cases hn : n = seq
  · simp [lookup_append, hn]
  · have hother : [(seq, payload)].lookup n = none := by
      simpa using hn
    rw [lookup_append, hother, if_neg hn]

theorem lookup_concat_of_ne_none {accepted : List (Nat × Bytes)} (h : accepted.lookup seq ≠ none) (payload : Bytes)
    (n : Nat) : (accepted ++ [(seq, payload)]).lookup n = accepted.lookup n := by
  rw [lookup_concat]
  by_cases hn : n = seq
  · obtain ⟨first, hfirst⟩ := ne_none_iff_exists'.mp (hn ▸ h)
    rw [hfirst, some_or]
  · rw [if_neg hn, or_none]

theorem lookup_concat_of_eq_none {accepted : List (Nat × Bytes)} (h : accepted.lookup seq = none) (payload : Bytes)
    (n : Nat) : (accepted ++ [(seq, payload)]).lookup n = if n = seq then some payload else accepted.lookup n := by
  rw [lookup_concat]
  by_cases hn : n = seq
  · rw [if_pos hn, if_pos hn, hn, h, none_or]
  · rw [if_neg hn, if_neg hn, or_none]

theorem not_copy (hbelow : self.nextSeq ≤ seq) (hnone : get seq self.pending = none) :
    ¬ (decide (seq < self.nextSeq) || (get seq self.pending).isSome) := by
  rw [hnone, decide_eq_false (not_lt.mpr hbelow)]
  exact Bool.false_ne_true

theorem push_buffer {seq : UInt32} (habove : self.nextSeq < seq.toNat) (hnone : get seq.toNat self.pending = none)
    (hwindow : seq.toNat ≤ self.nextSeq + maxReorderDistance)
    (hbytes : self.pendingBytes + payload.length ≤ maxPendingBytes) :
    self.push seq payload = ({ self with
          pending := insert seq.toNat payload self.pending
          pendingBytes := self.pendingBytes + payload.length }, .ok []) := by
  have hnear : ¬ seq.toNat - self.nextSeq > maxReorderDistance := by omega
  have hroom : ¬ self.pendingBytes + payload.length > maxPendingBytes := by omega
  exact (if_neg (not_copy habove.le hnone)).trans ((if_pos habove).trans ((if_neg hnear).trans (if_neg hroom)))

/-- What a call can do. -/
theorem push_cases (self : OrderedCiphertextFrames) (seq : UInt32) (payload : Bytes) :
    -- a copy of a record
    ((seq.toNat < self.nextSeq ∨ get seq.toNat self.pending ≠ none) ∧ self.push seq payload = (self, .ok [])) ∨
    -- a record that is refused
    (¬ seq.toNat < self.nextSeq ∧ get seq.toNat self.pending = none ∧
      (seq.toNat = self.nextSeq → self.nextSeq = maxSeq) ∧ ∃ error, self.push seq payload = (self, .error error)) ∨
    -- a record that is buffered
    (self.nextSeq < seq.toNat ∧ get seq.toNat self.pending = none ∧
      seq.toNat ≤ self.nextSeq + maxReorderDistance ∧ self.pendingBytes + payload.length ≤ maxPendingBytes ∧
      self.push seq payload = ({ self with
            pending := insert seq.toNat payload self.pending
            pendingBytes := self.pendingBytes + payload.length }, .ok [])) ∨
    -- the expected record
    (seq.toNat = self.nextSeq ∧ self.nextSeq + 1 ≤ maxSeq ∧
      self.push seq payload = { self with nextSeq := self.nextSeq + 1 }.release [payload]) := by
  have hlt : seq.toNat < 2 ^ 32 := seq.toNat_lt
  by_cases hcopy : seq.toNat < self.nextSeq ∨ get seq.toNat self.pending ≠ none
  · refine .inl ⟨hcopy, if_pos ?_⟩
    rcases hcopy with hbelow | hbuffered
    · rw [decide_eq_true hbelow, Bool.true_or]
    · rw [isSome_iff_ne_none.mpr hbuffered, Bool.or_true]
  · push Not at hcopy
    obtain ⟨hbelow, hnone⟩ := hcopy
    have hnot := not_copy hbelow hnone
    right
    by_cases habove : seq.toNat > self.nextSeq
    · by_cases hfar : seq.toNat - self.nextSeq > maxReorderDistance
      · refine .inl ⟨not_lt.mpr hbelow, hnone, fun heq => by omega, ?_⟩
        exact ⟨_, (if_neg hnot).trans ((if_pos habove).trans (if_pos hfar))⟩
      · by_cases hfull : self.pendingBytes + payload.length > maxPendingBytes
        · refine .inl ⟨not_lt.mpr hbelow, hnone, fun heq => by omega, ?_⟩
          exact ⟨_, (if_neg hnot).trans ((if_pos habove).trans ((if_neg hfar).trans (if_pos hfull)))⟩
        · have hwindow : seq.toNat ≤ self.nextSeq + maxReorderDistance := by omega
          have hbytes := not_lt.mp hfull
          exact .inr (.inl ⟨habove, hnone, hwindow, hbytes, push_buffer habove hnone hwindow hbytes⟩)
    · have heq : seq.toNat = self.nextSeq := by omega
      by_cases hadvance : self.nextSeq + 1 ≤ maxSeq
      · refine .inr (.inr ⟨heq, hadvance, ?_⟩)
        rw [push]
        rw [if_neg hnot, if_neg habove, advance_ok hadvance]
      · refine .inl ⟨not_lt.mpr hbelow, hnone, fun _ => ?_, exhausted, ?_⟩
        · unfold maxSeq at hadvance ⊢
          omega
        · rw [push]
          rw [if_neg hnot, if_neg habove, advance_error hadvance]

theorem push_expected {seq : UInt32} (heq : seq.toNat = self.nextSeq) (hnone : get self.nextSeq self.pending = none)
    (hadvance : self.nextSeq + 1 ≤ maxSeq) (payload : Bytes) :
    self.push seq payload = { self with nextSeq := self.nextSeq + 1 }.release [payload] := by
  rcases push_cases self seq payload with ⟨hbelow | hbuffered, -⟩ | ⟨-, -, hlast, -⟩ | ⟨habove, -⟩ | ⟨-, -, hpush⟩
  · omega
  · rw [heq] at hbuffered
    exact absurd hnone hbuffered
  · omega
  · omega
  · exact hpush

/-! ### What a call keeps -/

theorem Run.call_ok {seq : UInt32} {frames : OrderedCiphertextFrames} {ready : List Bytes}
    (h : run.frames.push seq payload = (frames, .ok ready)) :
    run.call seq payload = ⟨frames, run.accepted ++ [(seq.toNat, payload)], run.released ++ ready⟩ := by
  rw [Run.call, h]

theorem Run.call_error {seq : UInt32} {frames : OrderedCiphertextFrames} {error : ExecServerError}
    (h : run.frames.push seq payload = (frames, .error error)) :
    run.call seq payload = { run with frames } := by
  rw [Run.call, h]

section

variable (h : run.Ordered)

include h

theorem Run.Ordered.accepted (hlt : seq < run.frames.nextSeq) : run.accepted.lookup seq ≠ none :=
  fun hnone => absurd (h.least.2 hnone) (not_le.mpr hlt)

/-- The call of the expected record, up to the loop. -/
theorem Run.Ordered.releasing (payload : Bytes) (hadvance : run.frames.nextSeq + 1 ≤ maxSeq) : Releasing
      { frames := { run.frames with nextSeq := run.frames.nextSeq + 1 }
        accepted := run.accepted ++ [(run.frames.nextSeq, payload)]
        released := run.released ++ [payload] } := by
  have hlookup := lookup_concat_of_eq_none h.least.1 payload
  refine ⟨fun seq hseq => ?_, ?_, h.sorted, fun seq => ?_, fun record hrecord => ?_, h.pending_le, h.pendingBytes,
    h.pendingBytes_le, hadvance⟩
  · rw [hlookup]
    rcases Nat.lt_succ_iff_lt_or_eq.mp hseq with hlt | rfl
    · rw [if_neg hlt.ne]
      exact h.accepted hlt
    · rw [if_pos rfl]
      exact some_ne_none payload
  · have hbelow : (range run.frames.nextSeq).map (fun seq => (run.accepted ++ [(run.frames.nextSeq, payload)]).lookup seq) =
        (range run.frames.nextSeq).map fun seq => run.accepted.lookup seq := by
      refine map_congr_left fun seq hseq => ?_
      rw [hlookup, if_neg (mem_range.mp hseq).ne]
    show (run.released ++ [payload]).map some = (range (run.frames.nextSeq + 1)).map _
    rw [map_append, h.released, range_succ, map_append, hbelow, map_singleton, map_singleton, hlookup, if_pos rfl]
  · show get seq run.frames.pending =
      if run.frames.nextSeq + 1 ≤ seq then (run.accepted ++ [(run.frames.nextSeq, payload)]).lookup seq else none
    rw [h.pending, hlookup]
    by_cases hlt : run.frames.nextSeq < seq
    · rw [if_pos hlt, if_pos (Nat.succ_le_of_lt hlt), if_neg (by omega)]
    · rw [if_neg hlt, if_neg (by omega)]
  · have hwindow := h.window record hrecord
    show record.1 ≤ run.frames.nextSeq + 1 + maxReorderDistance
    omega

theorem Run.Ordered.copy (hcopy : seq < run.frames.nextSeq ∨ get seq run.frames.pending ≠ none) (payload : Bytes) :
    Run.Ordered { run with accepted := run.accepted ++ [(seq, payload)] } := by
  have hseen : run.accepted.lookup seq ≠ none := by
    rcases hcopy with hbelow | hbuffered
    · exact h.accepted hbelow
    · rw [h.pending] at hbuffered
      split at hbuffered
      · exact hbuffered
      · exact absurd rfl hbuffered
  have hlookup : ∀ n, (run.accepted ++ [(seq, payload)]).lookup n = run.accepted.lookup n :=
    lookup_concat_of_ne_none hseen payload
  refine ⟨?_, ?_, h.sorted, fun n => ?_, h.window, h.pending_le, h.pendingBytes, h.pendingBytes_le, h.nextSeq_le⟩
  · simp only [hlookup]
    exact h.least
  · simp only [hlookup]
    exact h.released
  · simp only [hlookup]
    exact h.pending n

theorem Run.Ordered.buffer (hseq : seq ≤ maxSeq) (habove : run.frames.nextSeq < seq) (hnone : get seq run.frames.pending = none)
    (hwindow : seq ≤ run.frames.nextSeq + maxReorderDistance)
    (hbytes : run.frames.pendingBytes + payload.length ≤ maxPendingBytes) :
    Run.Ordered { run with
        frames :=
          { run.frames with
            pending := insert seq payload run.frames.pending
            pendingBytes := run.frames.pendingBytes + payload.length }
        accepted := run.accepted ++ [(seq, payload)] } := by
  have hfresh := (h.pending seq).trans (if_pos habove)
  have hlookup := lookup_concat_of_eq_none (hfresh.symm.trans hnone) payload
  have hsum := ((insert_perm hnone payload).map fun record => record.2.length).sum_eq
  refine ⟨⟨?_, fun n hn => ?_⟩, ?_, h.sorted.insert _ _, fun n => ?_, fun record hrecord => ?_,
    fun record hrecord => ?_, ?_, hbytes, h.nextSeq_le⟩
  · show (run.accepted ++ [(seq, payload)]).lookup run.frames.nextSeq = none
    rw [hlookup, if_neg habove.ne]
    exact h.least.1
  · have hnone' : (run.accepted ++ [(seq, payload)]).lookup n = none := hn
    rw [hlookup] at hnone'
    split at hnone'
    · cases hnone'
    · exact h.least.2 hnone'
  · show run.released.map some = (range run.frames.nextSeq).map _
    rw [h.released]
    refine map_congr_left fun n hn => ?_
    have hlt := mem_range.mp hn
    rw [hlookup, if_neg (by omega)]
  · show get n (insert seq payload run.frames.pending) =
      if run.frames.nextSeq < n then (run.accepted ++ [(seq, payload)]).lookup n else none
    rw [get_insert, hlookup, h.pending]
    by_cases hn : n = seq
    · subst hn
      rw [if_pos rfl, if_pos habove, if_pos rfl]
    · rw [if_neg hn, if_neg hn]
  · rcases mem_insert hrecord with rfl | hmem
    · exact hwindow
    · exact h.window record hmem
  · rcases mem_insert hrecord with rfl | hmem
    · exact hseq
    · exact h.pending_le record hmem
  · show run.frames.pendingBytes + payload.length = ((insert seq payload run.frames.pending).map _).sum
    rw [hsum, map_cons, sum_cons, h.pendingBytes, add_comm]

/-- A call keeps what holds between calls, unless it exhausts the numbers. -/
theorem Run.Ordered.call {seq : UInt32} (hexhausts : ¬ run.frames.Exhausts seq) (payload : Bytes) :
    (run.call seq payload).Ordered := by
  rcases push_cases run.frames seq payload with ⟨hcopy, hpush⟩ | ⟨-, -, -, error, hpush⟩ |
    ⟨habove, hnone, hwindow, hbytes, hpush⟩ | ⟨heq, hadvance, hpush⟩
  · rw [Run.call_ok hpush, append_nil]
    exact h.copy hcopy payload
  · rw [Run.call_error hpush]
    exact h
  · rw [Run.call_ok hpush, append_nil]
    have hlt := seq.toNat_lt
    exact h.buffer (by unfold maxSeq; omega) habove hnone hwindow hbytes
  · rcases (h.releasing payload hadvance).release [payload] with ⟨more, hok, hordered⟩ | ⟨-, hall⟩
    · rw [Run.call_ok (hpush.trans (Prod.ext rfl hok)), heq, ← append_assoc]
      exact hordered
    · exact absurd ⟨heq, hadvance, fun later hlater hmax => hall later hlater hmax⟩ hexhausts

/-- An error leaves the frames as they were, unless the call exhausts the numbers. -/
theorem Run.Ordered.push_error {seq : UInt32} {error : ExecServerError}
    (herror : (run.frames.push seq payload).2 = .error error) :
    (run.frames.push seq payload).1 = run.frames ↔ ¬ run.frames.Exhausts seq := by
  rcases push_cases run.frames seq payload with ⟨-, hpush⟩ | ⟨-, -, hlast, error', hpush⟩ |
    ⟨-, -, -, -, hpush⟩ | ⟨heq, hadvance, hpush⟩
  · rw [hpush] at herror
    cases herror
  · rw [hpush]
    refine iff_of_true rfl ?_
    rintro ⟨heq, hlt, -⟩
    exact absurd (hlast heq) hlt.ne
  · rw [hpush] at herror
    cases herror
  · rw [hpush] at herror ⊢
    rcases (h.releasing payload hadvance).release [payload] with ⟨more, hok, -⟩ | ⟨hlast, hall⟩
    · rw [hok] at herror
      cases herror
    · refine iff_of_false (fun hsame => ?_) (not_not.mpr ⟨heq, hadvance, fun later hlater hmax => hall later hlater hmax⟩)
      have hnext : maxSeq = run.frames.nextSeq := by rw [← hsame, hlast]
      omega

/-- A call that exhausts the numbers fails and drains the frames. -/
theorem Run.Ordered.push_exhausts {seq : UInt32} (hexhausts : run.frames.Exhausts seq) (payload : Bytes) :
    run.frames.push seq payload = ({ nextSeq := maxSeq }, .error exhausted) := by
  obtain ⟨heq, hadvance, hall⟩ := hexhausts
  have hnone : get run.frames.nextSeq run.frames.pending = none := (h.pending _).trans (if_neg (lt_irrefl _))
  rw [push_expected heq hnone hadvance]
  rcases (h.releasing payload hadvance).release [payload] with ⟨more, -, hordered⟩ | ⟨hlast, -⟩
  · -- the loop would expect a number that was accepted
    have hmissing : (run.accepted ++ [(run.frames.nextSeq, payload)]).lookup
        ({ run.frames with nextSeq := run.frames.nextSeq + 1 }.release [payload]).1.nextSeq = none := hordered.least.1
    have hmax := hordered.nextSeq_le
    rw [lookup_concat_of_eq_none h.least.1] at hmissing
    generalize ({ run.frames with nextSeq := run.frames.nextSeq + 1 }.release [payload]).1.nextSeq = next at hmissing hmax
    split at hmissing
    · cases hmissing
    next hne =>
      rcases lt_or_gt_of_ne hne with hlt | hgt
      · exact absurd hmissing (h.accepted hlt)
      · have hsome := hall next hgt hmax
        rw [h.pending, if_pos hgt, hmissing] at hsome
        cases hsome
  · exact hlast

end

/-! ## Runs -/

theorem ordered_start : Run.Ordered {} where
  least := ⟨rfl, fun _ _ => zero_le _⟩
  released := rfl
  sorted := Pairwise.nil
  pending seq := by
    split <;> rfl
  window record hrecord := by cases hrecord
  pending_le record hrecord := by cases hrecord
  pendingBytes := rfl
  pendingBytes_le := zero_le _
  nextSeq_le := zero_le _

theorem Run.Ordered.calls (h : run.Ordered) {calls : List (UInt32 × Bytes)} (hnever : run.NeverExhausts calls) :
    (run.calls calls).Ordered := by
  induction calls generalizing run with
  | nil => exact h
  | cons call calls ih => exact ih (h.call hnever.1 call.2) hnever.2

theorem Run.calls_concat (run : Run) (calls : List (UInt32 × Bytes)) (seq : UInt32) (payload : Bytes) :
    run.calls (calls ++ [(seq, payload)]) = (run.calls calls).call seq payload :=
  foldl_append

/-! ### Runs that are too short to exhaust the numbers -/

theorem Run.Ordered.nextSeq_le_length (h : run.Ordered) : run.frames.nextSeq ≤ run.accepted.length := by
  have hsubset : range run.frames.nextSeq ⊆ run.accepted.map Prod.fst := by
    intro seq hseq
    obtain ⟨payload, hlookup⟩ := ne_none_iff_exists'.mp (h.accepted (mem_range.mp hseq))
    obtain ⟨before, after, hsplit, -⟩ := lookup_eq_some_iff.mp hlookup
    rw [hsplit]
    simp
  have hle := (nodup_range.subperm hsubset).length_le
  rwa [length_range, length_map] at hle

theorem Run.length_accepted_call_le (run : Run) (seq : UInt32) (payload : Bytes) :
    (run.call seq payload).accepted.length ≤ run.accepted.length + 1 := by
  unfold Run.call
  split
  · simp
  · exact le_succ _

/-- The numbers are not exhausted as long as the last one is out of the window. -/
theorem Run.Ordered.not_exhausts (h : run.Ordered) (hfar : run.accepted.length + maxReorderDistance < maxSeq)
    (seq : UInt32) : ¬ run.frames.Exhausts seq := by
  rintro ⟨-, hlt, hall⟩
  have hle := h.nextSeq_le_length
  obtain ⟨payload, hlast⟩ := isSome_iff_exists.mp (hall maxSeq hlt le_rfl)
  have hwindow := h.window _ (mem_of_get hlast)
  omega

theorem Run.Ordered.neverExhausts (h : run.Ordered) {calls : List (UInt32 × Bytes)}
    (hfar : run.accepted.length + calls.length + maxReorderDistance ≤ maxSeq) : run.NeverExhausts calls := by
  induction calls generalizing run with
  | nil => trivial
  | cons call calls ih =>
    rw [length_cons] at hfar
    have hnot := h.not_exhausts (by omega) call.1
    have hlength := run.length_accepted_call_le call.1 call.2
    exact ⟨hnot, ih (h.call hnot call.2) (by omega)⟩

/-- A run whose calls never exhaust the numbers releases every record once and in order; an error leaves the frames
as they were exactly when the call does not exhaust the numbers, and a call that does fails and drains them. -/
theorem calls_ordered (calls : List (UInt32 × Bytes)) (hnever : Run.NeverExhausts {} calls) :
    let run := Run.calls {} calls
    run.Ordered ∧ (∀ seq payload error, (run.frames.push seq payload).2 = .error error →
      ((run.frames.push seq payload).1 = run.frames ↔ ¬ run.frames.Exhausts seq)) ∧
    ∀ seq payload, run.frames.Exhausts seq →
      run.frames.push seq payload = ({ nextSeq := maxSeq }, .error exhausted) := by
  have hordered := ordered_start.calls hnever
  refine ⟨hordered, fun seq payload error herror => hordered.push_error herror, ?_⟩
  exact fun seq payload hexhausts => hordered.push_exhausts hexhausts payload

/-- Records out of order, with a copy. -/
theorem calls_ordered_reordered : Run.NeverExhausts {} [(1, [7]), (0, [5]), (1, [9])] ∧
      (Run.calls {} [(1, [7]), (0, [5]), (1, [9])]).Ordered := by
  have hnever : Run.NeverExhausts {} [(1, [7]), (0, [5]), (1, [9])] :=
    ordered_start.neverExhausts (by decide)
  exact ⟨hnever, (calls_ordered _ hnever).1⟩

/-! ### A run that exhausts the numbers -/

theorem toNat_ofNat_of_le (h : seq ≤ maxSeq) : (ofNat seq).toNat = seq := by
  refine toNat_ofNat_of_lt' ?_
  unfold maxSeq at h
  show seq < 2 ^ 32
  omega

def inOrder (count : Nat) : List (UInt32 × Bytes) := (List.range count).map fun seq => (UInt32.ofNat seq, [])

theorem frames_inOrder {count : Nat} (h : count ≤ maxSeq) :
    (Run.calls {} (inOrder count)).frames = { nextSeq := count } := by
  induction count with
  | zero => rfl
  | succ count ih =>
    have hframes := ih (by omega)
    have hseq := @toNat_ofNat_of_le count (by omega)
    have hsplit : inOrder (count + 1) = inOrder count ++ [(ofNat count, [])] := by
      rw [inOrder, range_succ, map_append, map_singleton, inOrder]
    have hpush : (Run.calls {} (inOrder count)).frames.push (ofNat count) [] =
        ({ nextSeq := count + 1 }, .ok [[]]) := by
      rw [hframes, push_expected hseq rfl h, release_none rfl]
    rw [hsplit, Run.calls_concat, Run.call_ok hpush]

theorem frames_inOrder_last {last : Nat} (hnext : seq + 1 = last) (hlast : last = maxSeq) :
    (Run.calls {} (inOrder seq ++ [(ofNat last, [])])).frames = { nextSeq := seq, pending := [(last, [])] } := by
  have hframes := @frames_inOrder seq (by omega)
  have htoNat := @toNat_ofNat_of_le last (by omega)
  have hpush : push { nextSeq := seq } (ofNat last) [] = ({ nextSeq := seq, pending := [(last, [])] }, .ok []) := by
    rw [push_buffer, htoNat]
    · rfl
    · show seq < (ofNat last).toNat
      omega
    · rfl
    · show (ofNat last).toNat ≤ seq + 64
      omega
    · exact zero_le _
  rw [← hframes] at hpush
  rw [Run.calls_concat, Run.call_ok hpush]

/-- The call that exhausts the numbers drains the frames. -/
theorem push_last {last : Nat} (hnext : seq + 1 = last) (hlast : last = maxSeq) :
    push { nextSeq := seq, pending := [(last, [])] } (ofNat seq) [] = ({ nextSeq := last }, .error exhausted) := by
  have htoNat := @toNat_ofNat_of_le seq (by omega)
  have hnone : get seq [(last, ([] : Bytes))] = none := by
    rw [get_cons, if_neg (by omega)]
    rfl
  have hsome : get (seq + 1) [(last, ([] : Bytes))] = some [] := by
    rw [get_cons, if_pos hnext]
  have hremove : remove last [(last, ([] : Bytes))] = [] := by
    simp [remove]
  rw [push_expected htoNat hnone (by show seq + 1 ≤ maxSeq; omega),
    release_exhausted hsome _ (by show ¬ seq + 1 + 1 ≤ maxSeq; omega)]
  simp only [removeNext, hnext, hremove]
  rfl

/-- All numbers but the last two in order, then the last. -/
def exhaustingRun : Run := Run.calls {} (inOrder (maxSeq - 1) ++ [(UInt32.ofNat maxSeq, [])])

/-- With the last number buffered, the record in front of it is an error that drains the frames. -/
theorem push_exhausted : (exhaustingRun.frames.push (UInt32.ofNat (maxSeq - 1)) []).2 = .error exhausted ∧
      (exhaustingRun.frames.push (UInt32.ofNat (maxSeq - 1)) []).1 ≠ exhaustingRun.frames := by
  have hnext : maxSeq - 1 + 1 = maxSeq := by
    unfold maxSeq
    omega
  have hframes : exhaustingRun.frames = { nextSeq := maxSeq - 1, pending := [(maxSeq, [])] } := by
    exact frames_inOrder_last hnext rfl
  rw [hframes, push_last hnext rfl]
  refine ⟨rfl, fun hsame => ?_⟩
  have heq : maxSeq = maxSeq - 1 := congrArg nextSeq hsame
  omega

end Dcode.NoiseRelay
