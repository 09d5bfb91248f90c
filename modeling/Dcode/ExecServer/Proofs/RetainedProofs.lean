import Dcode.ExecServer.ProcessLog

/-!
# What a read tells

The response of a server holds the chunks that are kept, in the order of their numbers, and tells of the exit and the close if
they have happened.
-/

namespace Dcode.ExecServer.Retained

open NumberedLog List

variable {log : ProcessLog} (retained : Retained log)

def IsExit (log : ProcessLog) (seq : Nat) : Prop :=
  ∃ event ∈ log.events, event.seq = some seq ∧ event.isExited

variable {chunk : ProcessOutputChunk}

theorem chunk?_eq_some {event : ExecProcessEvent} : event.chunk? = some chunk ↔ event = .output chunk := by
  cases event <;> simp [ExecProcessEvent.chunk?]

variable {retained} {afterSeq : Nat}

theorem mem_chunks : chunk ∈ retained.chunks afterSeq ↔ .output chunk ∈ log.events ∧ chunk.seq ≤ retained.count ∧
      afterSeq < chunk.seq ∧ retained.evictedThrough < chunk.seq := by
  rw [chunks, mem_filter, mem_filterMap, Bool.and_eq_true, decide_eq_true_eq, decide_eq_true_eq]
  constructor
  · rintro ⟨⟨event, hevent, hchunk⟩, hafter, hkept⟩
    obtain rfl := chunk?_eq_some.mp hchunk
    have hmem := mem_of_mem_take hevent
    exact ⟨hmem, (log.numbered.mem_take hmem rfl).mp hevent, hafter, hkept⟩
  · rintro ⟨hmem, hle, hafter, hkept⟩
    exact ⟨⟨_, (log.numbered.mem_take hmem rfl).mpr hle, rfl⟩, hafter, hkept⟩

theorem keeps_of_mem_chunks (h : chunk ∈ retained.chunks afterSeq) : retained.Keeps chunk.seq :=
  ⟨chunk, (mem_chunks.mp h).1, rfl, (mem_chunks.mp h).2.2.2⟩

/-- The kept chunks behind a number are all in the response. -/
theorem Keeps.exists_mem_chunks {seq afterSeq : Nat} (h : retained.Keeps seq) (hle : seq ≤ retained.count)
    (hafter : afterSeq < seq) : ∃ chunk ∈ retained.chunks afterSeq, chunk.seq = seq := by
  obtain ⟨chunk, hmem, rfl, hkept⟩ := h
  exact ⟨chunk, mem_chunks.mpr ⟨hmem, hle, hafter, hkept⟩, rfl⟩

theorem Evicted.not_keeps {seq : Nat} (h : retained.Evicted seq) : ¬ retained.Keeps seq := by
  rintro ⟨_, _, rfl, hkept⟩
  obtain ⟨_, _, _, hevicted⟩ := h
  omega

theorem Evicted.not_isExit {seq : Nat} (h : retained.Evicted seq) : ¬ IsExit log seq := by
  rintro ⟨event, hmem, hseq, hexit⟩
  obtain ⟨chunk, hchunk, rfl, -⟩ := h
  obtain rfl := log.numbered.eq_of_seq hmem hchunk hseq rfl
  cases hexit

theorem pairwise_outputs {events : List ExecProcessEvent} (h : Numbered ExecProcessEvent.seq events) :
    (events.filterMap ExecProcessEvent.chunk?).Pairwise fun a b => a.seq < b.seq := by
  refine pairwise_filterMap.mpr (h.pairwise.imp ?_)
  intro a b hab c hc d hd
  rw [chunk?_eq_some.mp hc, chunk?_eq_some.mp hd] at hab
  exact hab _ _ rfl rfl

theorem pairwise_chunks (afterSeq : Nat) : (retained.chunks afterSeq).Pairwise fun a b => a.seq < b.seq :=
  Pairwise.filter _ (pairwise_outputs (log.numbered.take _))

/-! ## The exit and the close -/

theorem exited_eq_true : (retained.response afterSeq).exited ↔ ∃ seq ≤ retained.count, IsExit log seq := by
  change ((log.events.take retained.count).find? ExecProcessEvent.isExited).isSome ↔ _
  rw [find?_isSome]
  constructor
  · rintro ⟨event, hevent, hexit⟩
    have hmem := mem_of_mem_take hevent
    obtain ⟨seq, hseq⟩ := log.numbered.exists_seq hmem
    exact ⟨seq, (log.numbered.mem_take hmem hseq).mp hevent, event, hmem, hseq, hexit⟩
  · rintro ⟨seq, hle, event, hmem, hseq, hexit⟩
    exact ⟨event, (log.numbered.mem_take hmem hseq).mpr hle, hexit⟩

/-- The response tells all of the exit but its number. -/
theorem exit_mem {seq afterSeq : Nat} (hexit : IsExit log seq) (hle : seq ≤ retained.count) :
    ∃ exitCode, (retained.response afterSeq).exitCode = some exitCode ∧
      .exited seq exitCode (some (retained.response afterSeq).sandboxDenied) ∈ log.events := by
  obtain ⟨event, hmem, hseq, hexited⟩ := hexit
  have hfound : retained.exit? = some event := by
    have hsome : retained.exit?.isSome := by
      rw [exit?, find?_isSome]
      exact ⟨event, (log.numbered.mem_take hmem hseq).mpr hle, hexited⟩
    obtain ⟨event', hevent'⟩ := Option.isSome_iff_exists.mp hsome
    have hmem' := mem_of_mem_take (mem_of_find?_eq_some hevent')
    rw [hevent', log.exit_unique _ hmem' _ hmem (find?_some hevent') hexited]
  cases event with
  | output _ | closed _ | failed _ => cases hexited
  | exited seq' exitCode sandboxDenied =>
    obtain rfl : seq' = seq := Option.some.inj hseq
    obtain ⟨denied, rfl⟩ := Option.isSome_iff_exists.mp (log.exit_classified _ _ _ hmem)
    have hcode : (retained.response afterSeq).exitCode = retained.exit?.bind exitCode? := rfl
    have hdenied : (retained.response afterSeq).sandboxDenied = retained.exit?.any deniedBy := rfl
    rw [hcode, hdenied, hfound]
    exact ⟨exitCode, rfl, hmem⟩

theorem IsExit.unique {seq seq' : Nat} (h : IsExit log seq) (h' : IsExit log seq') : seq = seq' := by
  obtain ⟨event, hmem, hseq, hexit⟩ := h
  obtain ⟨event', hmem', hseq', hexit'⟩ := h'
  obtain rfl := log.exit_unique _ hmem _ hmem' hexit hexit'
  rw [hseq] at hseq'
  exact Option.some.inj hseq'

/-- If the close has happened, it is the last event of the response. -/
theorem closed_mem (h : (retained.response afterSeq).closed) :
    retained.count = log.events.length ∧ .closed retained.count ∈ log.events := by
  obtain ⟨event, hevent, hclosed⟩ := any_eq_true.mp h
  have hmem := mem_of_mem_take hevent
  have hseq := log.closed_last _ hmem hclosed
  have hle := (log.numbered.mem_take hmem hseq).mp hevent
  have hcount : retained.count = log.events.length := Nat.le_antisymm retained.count_le hle
  cases event with
  | output _ | exited _ _ _ | failed _ => cases hclosed
  | closed seq =>
    obtain rfl : seq = log.events.length := Option.some.inj hseq
    rw [hcount]
    exact ⟨rfl, hmem⟩

end Dcode.ExecServer.Retained
