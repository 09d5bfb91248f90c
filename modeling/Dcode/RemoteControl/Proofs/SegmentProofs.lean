import Dcode.RemoteControl.ChunkedMessages

/-!
# Chunks in order

The chunk that an assembly waits for is put behind what it holds, and the last one completes the message
(`update_chunk`, `observe_chunk`).
-/

namespace Dcode.RemoteControl

open ClientSegmentReassembler List AList

open Str (byteLen)

variable {M : Type} {codec : Codec M}

/-! ## Messages -/

namespace ChunkedMessage

def metadata (message : ChunkedMessage codec) : ClientSegmentMetadata where
  seqId := message.seqId
  segmentCount := message.chunks.length
  messageSizeBytes := (message.chunks.flatMap Prod.snd).length

def assembly (message : ChunkedMessage codec) (streamId : StreamId) (count seenAt : Nat) : ClientSegmentAssembly where
  streamId := streamId
  metadata := message.metadata
  raw := message.firstBytes count
  nextSegmentId := count
  lastChunkSeenAt := seenAt

def text (message : ChunkedMessage codec) (segmentId : Nat) : Str := (message.chunks.map Prod.fst).getD segmentId []

variable (message : ChunkedMessage codec)

theorem firstBytes_all : message.firstBytes message.chunks.length = message.chunks.flatMap Prod.snd := by
  rw [firstBytes, take_length]

theorem exists_decodes {count : Nat} (h : count < message.chunks.length) :
    ∃ bytes, codec.Decodes (message.text count) bytes ∧
      message.firstBytes (count + 1) = message.firstBytes count ++ bytes := by
  have hget : message.chunks[count]? = some message.chunks[count] := getElem?_eq_getElem h
  refine ⟨message.chunks[count].2, ?_, ?_⟩
  · have htext : message.text count = message.chunks[count].1 := by
      rw [text, getD_eq_getElem?_getD, getElem?_map, hget]
      rfl
    rw [htext]
    exact message.decodes _ (getElem_mem h)
  · rw [firstBytes, firstBytes, take_add_one, hget, flatMap_append]
    simp

theorem length_firstBytes_le (count : Nat) :
    (message.firstBytes count).length ≤ (message.chunks.flatMap Prod.snd).length := by
  have hsplit : message.chunks.flatMap Prod.snd = message.firstBytes count ++ (message.chunks.drop count).flatMap Prod.snd := by
    rw [firstBytes, ← flatMap_append, take_append_drop]
  rw [hsplit, length_append]
  exact Nat.le_add_right _ _

theorem update_chunk (streamId : StreamId) {count : Nat} (seenAt now : Nat) (h : count < message.chunks.length) :
    (message.assembly streamId count seenAt).update codec message.metadata count (message.text count) now =
      (message.assembly streamId (count + 1) now,
        if count + 1 < message.chunks.length then .pending else .complete message.message) := by
  obtain ⟨bytes, hdecodes, hbytes⟩ := message.exists_decodes h
  have hlen := message.length_firstBytes_le (count + 1)
  rw [hbytes, length_append] at hlen
  have hestimate := hdecodes.le_estimate
  have hdecode := hdecodes.decodeSlice (min message.metadata.messageSizeBytes
      ((message.firstBytes count).length + codec.decodedLenEstimate (byteLen (message.text count))) -
        (message.firstBytes count).length) (by
      unfold metadata
      dsimp only
      omega)
  simp only [ClientSegmentAssembly.update, assembly, lt_irrefl, if_false, ne_eq, not_true_eq_false, hdecode, ← hbytes]
  by_cases hmore : count + 1 < message.chunks.length
  · have hmore' : count + 1 < message.metadata.segmentCount := hmore
    simp [hmore, hmore']
  · have hmore' : ¬ count + 1 < message.metadata.segmentCount := hmore
    have hall : message.firstBytes (count + 1) = message.chunks.flatMap Prod.snd := by
      rw [← message.firstBytes_all]
      congr 1
      omega
    have hsize : (message.chunks.flatMap Prod.snd).length = message.metadata.messageSizeBytes := rfl
    simp [hmore, hmore', hall, hsize, message.fromSlice]

end ChunkedMessage

/-! ## The reassembler -/

namespace ClientSegmentReassembler

variable {self : ClientSegmentReassembler}

theorem evictAssembliesIfFull_eq (h : self.assemblies.keys.length < remoteControlSegmentAssemblyMaxCount) :
    self.evictAssembliesIfFull = self := by
  rw [evictAssembliesIfFull]
  cases hturns : self.assemblies.keys.length with
  | zero => rfl
  | succ turns => rw [evictLoop, if_neg (not_le.mpr h)]

variable {clientId : ClientId}

theorem prepareAssembly_some {assembly : ClientSegmentAssembly} (h : self.assemblies.lookup clientId = some assembly)
    (metadata : ClientSegmentMetadata) (now : Nat) :
    self.prepareAssembly clientId assembly.streamId metadata now = self := by
  rw [prepareAssembly, h]
  exact if_neg (not_not.mpr rfl)

theorem prepareAssembly_none (h : self.assemblies.lookup clientId = none)
    (hroom : self.assemblies.keys.length < remoteControlSegmentAssemblyMaxCount) (streamId : StreamId)
    (metadata : ClientSegmentMetadata) (now : Nat) :
    self.prepareAssembly clientId streamId metadata now =
      { assemblies := self.assemblies.insert clientId (.new streamId metadata now) } := by
  rw [prepareAssembly, h, evictAssembliesIfFull_eq hroom]

theorem removeAssembly_eq {assembly : ClientSegmentAssembly} (h : self.assemblies.lookup clientId = some assembly) :
    self.removeAssembly clientId assembly.streamId = { assemblies := self.assemblies.erase clientId } := by
  rw [removeAssembly, h]
  simp

section

variable {prepared : ClientSegmentReassembler} {envelope : ClientEnvelope M} {streamId : StreamId}
  {metadata : ClientSegmentMetadata} {segmentId : Nat} {text : Str} {now : Nat}
  {assembly assembly' : ClientSegmentAssembly}
  (hprepared : self.prepareAssembly envelope.clientId streamId metadata now = prepared)
  (hlookup : prepared.assemblies.lookup envelope.clientId = some assembly)

include hprepared hlookup

theorem observeChunk_pending (hupdate : assembly.update codec metadata segmentId text now = (assembly', .pending)) :
    self.observeChunk codec envelope streamId metadata segmentId text now =
      ({ assemblies := prepared.assemblies.insert envelope.clientId assembly' }, .pending) := by
  simp [observeChunk, hprepared, hlookup, hupdate]

omit hprepared hlookup in
theorem removeAssembly_insert (assemblies : AList fun _ : ClientId => ClientSegmentAssembly) (clientId : ClientId)
    (assembly : ClientSegmentAssembly) :
    removeAssembly { assemblies := assemblies.insert clientId assembly } clientId assembly.streamId =
      { assemblies := (assemblies.insert clientId assembly).erase clientId } := by
  have hlookup : (assemblies.insert clientId assembly).lookup clientId = some assembly := lookup_insert _
  exact @removeAssembly_eq { assemblies := assemblies.insert clientId assembly } _ _ hlookup

theorem observeChunk_complete {message : M}
    (hupdate : assembly.update codec metadata segmentId text now = (assembly', .complete message))
    (hstream : assembly'.streamId = streamId) :
    self.observeChunk codec envelope streamId metadata segmentId text now =
      ({ assemblies := (prepared.assemblies.insert envelope.clientId assembly').erase envelope.clientId },
        .forward { envelope with event := .clientMessage message }) := by
  subst hstream
  simp only [observeChunk, hprepared, hlookup, hupdate]
  rw [removeAssembly_insert]

end

end ClientSegmentReassembler

/-- What a chunk that was waited for leaves of the assemblies: that of the client goes on, or is done with. -/
structure Taken (message : ChunkedMessage codec) (clientId : ClientId) (streamId : StreamId) (count : Nat)
    (before after : ClientSegmentReassembler) : Prop where
  other : ∀ other, other ≠ clientId → after.assemblies.lookup other = before.assemblies.lookup other
  goesOn : count + 1 < message.chunks.length →
    ∃ seenAt, after.assemblies.lookup clientId = some (message.assembly streamId (count + 1) seenAt)
  done : ¬ count + 1 < message.chunks.length → after.assemblies.lookup clientId = none

variable {self : ClientSegmentReassembler} {clientId : ClientId} {streamId : StreamId} {count : Nat}

/-- The chunk that the assembly of its client waits for. -/
theorem observeChunk_taken (message : ChunkedMessage codec) {prepared : ClientSegmentReassembler} {seenAt : Nat}
    (cursor : Option Str) {now : Nat}
    (hprepare : self.prepareAssembly clientId streamId message.metadata now = prepared)
    (hprepared : prepared.assemblies.lookup clientId = some (message.assembly streamId count seenAt))
    (hother : ∀ other, other ≠ clientId → prepared.assemblies.lookup other = self.assemblies.lookup other)
    (hcount : count < message.chunks.length) :
    ∃ after, Taken message clientId streamId count self after ∧
      self.observeChunk codec (message.envelope clientId streamId cursor count) streamId message.metadata count
        (message.text count) now =
        (after, if count + 1 < message.chunks.length then .pending
          else .forward (message.delivery clientId streamId cursor)) := by
  have hupdate := message.update_chunk streamId seenAt now hcount
  by_cases hmore : count + 1 < message.chunks.length
  · rw [if_pos hmore] at hupdate ⊢
    refine ⟨{ assemblies := prepared.assemblies.insert clientId (message.assembly streamId (count + 1) now) },
      ⟨fun other hne => ?_, fun _ => ⟨now, lookup_insert _⟩, fun hdone => absurd hmore hdone⟩,
      observeChunk_pending hprepare hprepared hupdate⟩
    rw [lookup_insert_ne hne, hother other hne]
  · rw [if_neg hmore] at hupdate ⊢
    refine ⟨{ assemblies := (prepared.assemblies.insert clientId (message.assembly streamId (count + 1) now)).erase clientId },
      ⟨fun other hne => ?_, fun hgoesOn => absurd hgoesOn hmore, fun _ => lookup_erase _ _⟩,
      observeChunk_complete hprepare hprepared hupdate rfl⟩
    rw [lookup_erase_ne hne, lookup_insert_ne hne, hother other hne]

/-! ### From the envelope -/

theorem shouldIgnoreChunk_none (h : self.assemblies.lookup clientId = none) (streamId : StreamId)
    (seqId segmentId : Nat) :
    self.shouldIgnoreChunk clientId streamId seqId segmentId = false := by
  rw [shouldIgnoreChunk, h]
  rfl

theorem shouldIgnoreChunk_assembly {message : ChunkedMessage codec} {seenAt : Nat}
    (h : self.assemblies.lookup clientId = some (message.assembly streamId count seenAt)) (seqId segmentId : Nat) :
    self.shouldIgnoreChunk clientId streamId seqId segmentId ↔
      seqId < message.seqId ∨ seqId = message.seqId ∧ segmentId < count := by
  rw [shouldIgnoreChunk, h]
  simp [ChunkedMessage.assembly, ChunkedMessage.metadata]

theorem observe_eq_observeChunk (message : ChunkedMessage codec) (cursor : Option Str) (now : Nat)
    (hcount : count < message.chunks.length)
    (hignore : self.shouldIgnoreChunk clientId streamId message.seqId count = false) :
    self.observe codec (message.envelope clientId streamId cursor count) now =
      self.observeChunk codec (message.envelope clientId streamId cursor count) streamId message.metadata count
        (message.text count) now := by
  obtain ⟨bytes, hdecodes, -⟩ := message.exists_decodes hcount
  have hvalid : ¬ (message.chunks.length = 0 ∨ message.chunks.length > remoteControlSegmentCountMax ∨
      count ≥ message.chunks.length ∨ (message.chunks.flatMap Prod.snd).length = 0 ∨
      (message.chunks.flatMap Prod.snd).length > remoteControlReassembledMaxBytes ∨ (message.text count).isEmpty) := by
    have hle := message.count_le
    have hsize := message.size_pos
    have hsizeLe := message.size_le
    rintro (h | h | h | h | h | h)
    · omega
    · omega
    · omega
    · omega
    · omega
    · exact hdecodes.ne_nil (isEmpty_iff.mp h)
  have hkept : ¬ self.shouldIgnoreChunk clientId streamId message.seqId count := by
    rw [hignore]
    exact Bool.false_ne_true
  exact (if_neg hkept).trans (if_neg hvalid)

end Dcode.RemoteControl
