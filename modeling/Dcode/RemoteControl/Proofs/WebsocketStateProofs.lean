import Dcode.RemoteControl.Proofs.SegmentProofs

/-!
# Complete messages are forwarded once

As long as no client gives a message up, the assembly and the cursor of each client say where the client is (`Follows`).
A chunk that is sent again is dropped by one of them, and one that is sent for the first time is taken.
-/

namespace Dcode.RemoteControl

open List WebsocketState ClientSegmentReassembler Function Option

variable {M : Type} {codec : Codec M}

namespace WebsocketState

def lastCompleted (self : WebsocketState) (clientId : ClientId) (streamId : StreamId) : Option Nat :=
  self.lastCompletedClientChunkSeqIdByStream.lookup (clientId, some streamId)

def assemblyOf (self : WebsocketState) (clientId : ClientId) : Option ClientSegmentAssembly :=
  self.clientSegmentReassembler.assemblies.lookup clientId

/-! ## One chunk -/

section

variable {self : WebsocketState} {message : ChunkedMessage codec} {clientId : ClientId} {streamId : StreamId}
  {cursor : Option Str} {segmentId wireSizeBytes now : Nat}

theorem isCompleted_iff : self.isCompleted (message.envelope clientId streamId cursor segmentId) ↔
      ∃ last, self.lastCompleted clientId streamId = some last ∧ message.seqId ≤ last := by
  show ((self.lastCompleted clientId streamId).any fun last => last ≥ message.seqId) ↔ _
  cases self.lastCompleted clientId streamId with
  | none | some last => simp

theorem receive_completed {last : Nat} (hlast : self.lastCompleted clientId streamId = some last)
    (hle : message.seqId ≤ last) :
    self.receive codec (message.envelope clientId streamId cursor segmentId) wireSizeBytes now = (self, none) := by
  have hcompleted : self.isCompleted (message.envelope clientId streamId cursor segmentId) :=
    isCompleted_iff.mpr ⟨last, hlast, hle⟩
  simp [receive, observeClientMessage, hcompleted]

theorem receive_ignored
    (hignore : self.clientSegmentReassembler.shouldIgnoreChunk clientId streamId message.seqId segmentId) :
    self.receive codec (message.envelope clientId streamId cursor segmentId) wireSizeBytes now = (self, none) := by
  have hignored : self.isIgnored (message.envelope clientId streamId cursor segmentId) := hignore
  simp [receive, observeClientMessage, hignored]

/-- A chunk that is neither completed nor ignored is observed. -/
theorem observeClientMessage_eq (hnew : ∀ last, self.lastCompleted clientId streamId = some last → last < message.seqId)
    (hignore : self.clientSegmentReassembler.shouldIgnoreChunk clientId streamId message.seqId segmentId = false)
    (hwire : wireSizeBytes ≤ remoteControlSegmentMaxBytes) {after : ClientSegmentReassembler}
    {observation : ClientSegmentObservation M}
    (hobserve : self.clientSegmentReassembler.observe codec (message.envelope clientId streamId cursor segmentId) now =
      (after, observation)) :
    self.observeClientMessage codec (message.envelope clientId streamId cursor segmentId) wireSizeBytes now =
      ({ self with clientSegmentReassembler := after }, observation) := by
  have hcompleted : ¬ self.isCompleted (message.envelope clientId streamId cursor segmentId) := by
    rw [isCompleted_iff]
    rintro ⟨last, hlast, hle⟩
    have hlt := hnew last hlast
    omega
  have hkept : ¬ self.isIgnored (message.envelope clientId streamId cursor segmentId) := by
    show ¬ self.clientSegmentReassembler.shouldIgnoreChunk clientId streamId message.seqId segmentId
    rw [hignore]
    exact Bool.false_ne_true
  rw [observeClientMessage, if_neg hcompleted, if_neg hkept, if_neg (by omega), hobserve]

/-- What a chunk that is taken leaves of the state of its client, and what is forwarded. -/
theorem receive_taken {count seenAt : Nat} {prepared : ClientSegmentReassembler}
    (hprepare : self.clientSegmentReassembler.prepareAssembly clientId streamId message.metadata now = prepared)
    (hprepared : prepared.assemblies.lookup clientId = some (message.assembly streamId count seenAt))
    (hother : ∀ other, other ≠ clientId →
      prepared.assemblies.lookup other = self.clientSegmentReassembler.assemblies.lookup other)
    (hcount : count < message.chunks.length)
    (hnew : ∀ last, self.lastCompleted clientId streamId = some last → last < message.seqId)
    (hignore : self.clientSegmentReassembler.shouldIgnoreChunk clientId streamId message.seqId count = false)
    (hwire : wireSizeBytes ≤ remoteControlSegmentMaxBytes) :
    ∃ after, self.receive codec (message.envelope clientId streamId cursor count) wireSizeBytes now =
        (after, (message.completedBy count).map fun message => message.delivery clientId streamId cursor) ∧
      Taken message clientId streamId count self.clientSegmentReassembler after.clientSegmentReassembler ∧
      after.lastCompletedClientChunkSeqIdByStream =
        if count + 1 < message.chunks.length then self.lastCompletedClientChunkSeqIdByStream
        else self.lastCompletedClientChunkSeqIdByStream.insert (clientId, some streamId) message.seqId := by
  obtain ⟨after, htaken, hchunk⟩ := observeChunk_taken message cursor hprepare hprepared hother hcount
  rw [← observe_eq_observeChunk message cursor now hcount hignore] at hchunk
  have hobserve := @observeClientMessage_eq _ _ self message clientId streamId cursor count wireSizeBytes now
    hnew hignore hwire _ _ hchunk
  by_cases hmore : count + 1 < message.chunks.length
  · have hnone : message.completedBy count = none := if_neg (by omega)
    rw [if_pos hmore] at hobserve ⊢
    refine ⟨{ self with clientSegmentReassembler := after }, ?_, htaken, rfl⟩
    rw [receive, hobserve, hnone]
    rfl
  · have hsome : message.completedBy count = some message := if_pos (by omega)
    rw [if_neg hmore] at hobserve ⊢
    refine ⟨recordClientMessageDelivery { self with clientSegmentReassembler := after }
      (message.delivery clientId streamId cursor) (some ((clientId, some streamId), message.seqId)), ?_, htaken, rfl⟩
    rw [receive, hobserve, hsome]
    rfl

end

end WebsocketState

/-! ## Where the clients are -/

structure Follows (sender : Sender codec) (streamId : StreamId) (assembly : Option ClientSegmentAssembly)
    (last : Option Nat) : Prop where
  idle : sender.current = none → assembly = none ∧ last = none
  goesOn : ∀ message count, sender.current = some (message, count) → count < message.chunks.length →
    (∃ seenAt, assembly = some (message.assembly streamId count seenAt)) ∧ ∀ seqId, last = some seqId → seqId < message.seqId
  done : ∀ message count, sender.current = some (message, count) → ¬ count < message.chunks.length →
    assembly = none ∧ last = some message.seqId
  sent : ∀ message segmentId, (message, segmentId) ∈ sender.sent → ∃ current count,
    sender.current = some (current, count) ∧
      (message.seqId < current.seqId ∨ message.seqId = current.seqId ∧ segmentId < count)

structure Serves (streamOf : ClientId → StreamId) (clients : List ClientId) (senders : ClientId → Sender codec)
    (state : WebsocketState) : Prop where
  follows : ∀ clientId, Follows (senders clientId) (streamOf clientId) (state.assemblyOf clientId)
    (state.lastCompleted clientId (streamOf clientId))
  clients : ∀ clientId, state.assemblyOf clientId ≠ none → clientId ∈ clients

variable {clientId : ClientId} {message : ChunkedMessage codec}

theorem receive_again {self : WebsocketState} {sender : Sender codec} {streamId : StreamId}
    (h : Follows sender streamId (self.assemblyOf clientId) (self.lastCompleted clientId streamId)) {segmentId : Nat}
    (hsent : (message, segmentId) ∈ sender.sent) (cursor : Option Str) (wireSizeBytes now : Nat) :
    self.receive codec (message.envelope clientId streamId cursor segmentId) wireSizeBytes now = (self, none) := by
  obtain ⟨current, count, hcurrent, hbefore⟩ := h.sent message segmentId hsent
  by_cases hcount : count < current.chunks.length
  · obtain ⟨⟨seenAt, hassembly⟩, -⟩ := h.goesOn current count hcurrent hcount
    exact receive_ignored ((shouldIgnoreChunk_assembly hassembly _ _).mpr hbefore)
  · obtain ⟨-, hlast⟩ := h.done current count hcurrent hcount
    exact receive_completed hlast (by omega)

namespace Serves

variable {streamOf : ClientId → StreamId} {clients : List ClientId} {senders : ClientId → Sender codec}
  {state : WebsocketState}

section

variable (h : Serves streamOf clients senders state)

include h

theorem room (hclients : clients.length ≤ remoteControlSegmentAssemblyMaxCount) {clientId : ClientId}
    (hmem : clientId ∈ clients) (hnone : state.assemblyOf clientId = none) :
    state.clientSegmentReassembler.assemblies.keys.length < remoteControlSegmentAssemblyMaxCount := by
  have hkeys : ∀ other ∈ state.clientSegmentReassembler.assemblies.keys, state.assemblyOf other ≠ none := by
    intro other hother
    exact isSome_iff_ne_none.mp (AList.lookup_isSome.mpr hother)
  have hfresh : clientId ∉ state.clientSegmentReassembler.assemblies.keys := fun hkey => hkeys clientId hkey hnone
  have hnodup : (clientId :: state.clientSegmentReassembler.assemblies.keys).Nodup :=
    List.nodup_cons.mpr ⟨hfresh, state.clientSegmentReassembler.assemblies.keys_nodup⟩
  have hsubset : clientId :: state.clientSegmentReassembler.assemblies.keys ⊆ clients :=
    List.cons_subset.mpr ⟨hmem, fun other hother => h.clients other (hkeys other hother)⟩
  have hle := (hnodup.subperm hsubset).length_le
  rw [length_cons] at hle
  omega

/-- A chunk that is sent for the first time, with the assembly it goes to. -/
theorem taken {clientId : ClientId} (hmem : clientId ∈ clients) {message : ChunkedMessage codec}
    {count seenAt now wireSizeBytes : Nat} {prepared : ClientSegmentReassembler}
    (hprepare : state.clientSegmentReassembler.prepareAssembly clientId (streamOf clientId) message.metadata now = prepared)
    (hprepared : prepared.assemblies.lookup clientId = some (message.assembly (streamOf clientId) count seenAt))
    (hother : ∀ other, other ≠ clientId →
      prepared.assemblies.lookup other = state.clientSegmentReassembler.assemblies.lookup other)
    (hcount : count < message.chunks.length)
    (hnew : ∀ last, state.lastCompleted clientId (streamOf clientId) = some last → last < message.seqId)
    (hignore : state.clientSegmentReassembler.shouldIgnoreChunk clientId (streamOf clientId) message.seqId count = false)
    (hbefore : ∀ older sent, (senders clientId).current = some (older, sent) →
      older.seqId < message.seqId ∨ older.seqId = message.seqId ∧ sent ≤ count)
    (hwire : wireSizeBytes ≤ remoteControlSegmentMaxBytes) (cursor : Option Str) :
    ∃ after, state.receive codec (message.envelope clientId (streamOf clientId) cursor count) wireSizeBytes now =
        (after, (message.completedBy count).map fun message => message.delivery clientId (streamOf clientId) cursor) ∧
      Serves streamOf clients (update senders clientId
          { current := some (message, count + 1), sent := (message, count) :: (senders clientId).sent }) after := by
  obtain ⟨after, hreceive, htaken, hlast⟩ :=
    @receive_taken _ _ state message clientId (streamOf clientId) cursor wireSizeBytes now count seenAt
      prepared hprepare hprepared hother hcount hnew hignore hwire
  have hlastOther : ∀ other, other ≠ clientId →
      after.lastCompleted other (streamOf other) = state.lastCompleted other (streamOf other) := by
    intro other hne
    rw [lastCompleted, hlast]
    split
    · rfl
    · exact AList.lookup_insert_ne fun heq => hne (Prod.mk.inj heq).1
  refine ⟨after, hreceive, ⟨fun other => ?_, fun other hassembly => ?_⟩⟩
  · by_cases hne : other = clientId
    · subst hne
      rw [update_self]
      refine ⟨fun hidle => (by cases hidle), fun current sent hcurrent hmore => ?_, fun current sent hcurrent hdone => ?_,
        fun old segmentId hsent => ⟨message, count + 1, rfl, ?_⟩⟩
      · obtain ⟨rfl, rfl⟩ := Prod.mk.inj (some.inj hcurrent)
        refine ⟨htaken.goesOn hmore, fun seqId hseqId => hnew seqId ?_⟩
        rw [lastCompleted, hlast, if_pos hmore] at hseqId
        exact hseqId
      · obtain ⟨rfl, rfl⟩ := Prod.mk.inj (some.inj hcurrent)
        refine ⟨htaken.done hdone, ?_⟩
        rw [lastCompleted, hlast, if_neg hdone]
        exact AList.lookup_insert _
      · rcases List.mem_cons.mp hsent with heq | hsent
        · obtain ⟨rfl, rfl⟩ := Prod.mk.inj heq
          exact .inr ⟨rfl, Nat.lt_succ_self _⟩
        · obtain ⟨current, sent, hcurrent, hle⟩ := (h.follows other).sent old segmentId hsent
          have hold := hbefore current sent hcurrent
          omega
    · rw [update_of_ne hne]
      have hassembly : after.assemblyOf other = state.assemblyOf other := htaken.other other hne
      rw [hassembly, hlastOther other hne]
      exact h.follows other
  · by_cases hne : other = clientId
    · rw [hne]
      exact hmem
    · have hsame : after.assemblyOf other = state.assemblyOf other := htaken.other other hne
      rw [hsame] at hassembly
      exact h.clients other hassembly

/-- A chunk is sent by a client that gives nothing up. -/
theorem step (hclients : clients.length ≤ remoteControlSegmentAssemblyMaxCount) {chunk : SentChunk codec}
    (hmem : chunk.clientId ∈ clients) {completed : Option (ChunkedMessage codec)} {sender' : Sender codec}
    (hsends : (senders chunk.clientId).Sends False chunk.message chunk.segmentId completed sender') :
    ∃ after, state.receive codec
        (chunk.message.envelope chunk.clientId (streamOf chunk.clientId) chunk.cursor chunk.segmentId)
        chunk.wireSizeBytes chunk.now =
          (after, completed.map fun message => message.delivery chunk.clientId (streamOf chunk.clientId) chunk.cursor) ∧
      Serves streamOf clients (update senders chunk.clientId sender') after := by
  obtain ⟨clientId, message, segmentId, cursor, wireSizeBytes, now, hwire⟩ := chunk
  have hfollows := h.follows clientId
  cases hsends with
  | next hcurrent hcount =>
    obtain ⟨⟨seenAt, hassembly⟩, hnew⟩ := hfollows.goesOn message segmentId hcurrent hcount
    have hignore : state.clientSegmentReassembler.shouldIgnoreChunk clientId (streamOf clientId) message.seqId
        segmentId = false := by
      rw [← Bool.not_eq_true, shouldIgnoreChunk_assembly hassembly]
      omega
    refine h.taken hmem (prepareAssembly_some hassembly _ _) hassembly (fun _ _ => rfl) hcount
      hnew hignore (fun older sent holder => ?_) hwire cursor
    rw [hcurrent] at holder
    obtain ⟨rfl, rfl⟩ := Prod.mk.inj (some.inj holder)
    exact .inr ⟨rfl, le_rfl⟩
  | start hlater =>
    -- the message before is complete: there is no assembly, and the cursor is at it
    have hstart : state.assemblyOf clientId = none ∧
        ∀ last, state.lastCompleted clientId (streamOf clientId) = some last → last < message.seqId := by
      cases hcurrent : (senders clientId).current with
      | none =>
        obtain ⟨hassembly, hlast⟩ := hfollows.idle hcurrent
        refine ⟨hassembly, fun last hsome => ?_⟩
        rw [hlast] at hsome
        cases hsome
      | some older =>
        obtain ⟨older, sent⟩ := older
        obtain ⟨hlt, hcomplete⟩ := hlater older sent hcurrent
        obtain ⟨hassembly, hlast⟩ := hfollows.done older sent hcurrent hcomplete
        refine ⟨hassembly, fun last hsome => ?_⟩
        rw [hlast] at hsome
        obtain rfl := some.inj hsome
        exact hlt
    obtain ⟨hassembly, hnew⟩ := hstart
    have hprepare := prepareAssembly_none hassembly (h.room hclients hmem hassembly)
      (streamOf clientId) message.metadata now
    refine @taken _ _ _ _ _ _ h _ hmem _ _ now _ _ _ hprepare (AList.lookup_insert _)
      (fun other hne => AList.lookup_insert_ne hne) message.count_pos hnew
      (shouldIgnoreChunk_none hassembly _ _ _) (fun older sent holder => .inl (hlater older sent holder).1) hwire cursor
  | again hsent =>
    refine ⟨state, receive_again hfollows hsent cursor wireSizeBytes now, ?_⟩
    rw [update_eq_self]
    exact h

end

end Serves

/-! ## Runs -/

theorem serves_start (streamOf : ClientId → StreamId) (clients : List ClientId) :
    Serves streamOf clients (fun _ => ({} : Sender codec)) {} where
  follows clientId := by
    refine ⟨fun _ => ⟨rfl, rfl⟩, fun message count hcurrent => ?_, fun message count hcurrent => ?_,
      fun message segmentId hsent => ?_⟩
    · cases hcurrent
    · cases hcurrent
    · cases hsent
  clients clientId hassembly := absurd rfl hassembly

variable {state : WebsocketState}

theorem Serves.receiveAll {streamOf : ClientId → StreamId} {clients : List ClientId} {senders : ClientId → Sender codec}
    (h : Serves streamOf clients senders state) (hclients : clients.length ≤ remoteControlSegmentAssemblyMaxCount)
    {chunks : List (SentChunk codec × Option (ChunkedMessage codec))} (hrun : Interleaving False senders chunks)
    (hmem : ∀ chunk ∈ chunks, chunk.1.clientId ∈ clients) :
    state.receiveAll streamOf (chunks.map Prod.fst) = chunks.map fun sent =>
        sent.2.map fun message => message.delivery sent.1.clientId (streamOf sent.1.clientId) sent.1.cursor := by
  induction hrun generalizing state with
  | nil => rfl
  | cons hsends _ ih =>
    rw [forall_mem_cons] at hmem
    obtain ⟨after, hreceive, hafter⟩ := h.step hclients hmem.1 hsends
    rw [map_cons, map_cons, WebsocketState.receiveAll]
    simp only [hreceive]
    rw [ih hafter hmem.2]

/-- When no client gives a message up, every complete message is forwarded with its last chunk, and nothing else is. -/
theorem receiveAll_interleaving (streamOf : ClientId → StreamId) {clients : List ClientId}
    (hclients : clients.length ≤ remoteControlSegmentAssemblyMaxCount)
    {chunks : List (SentChunk codec × Option (ChunkedMessage codec))}
    (hrun : Interleaving False (fun _ => {}) chunks) (hmem : ∀ chunk ∈ chunks, chunk.1.clientId ∈ clients) :
    WebsocketState.receiveAll streamOf {} (chunks.map Prod.fst) = chunks.map fun sent =>
        sent.2.map fun message => message.delivery sent.1.clientId (streamOf sent.1.clientId) sent.1.cursor :=
  (serves_start streamOf clients).receiveAll hclients hrun hmem

/-! ## Runs of two clients -/

/-- The value of a character of the base64 alphabet. -/
def sextet (c : Char) : Option Nat :=
  "ABCDEFGHIJKLMNOPQRSTUVWXYZabcdefghijklmnopqrstuvwxyz0123456789+/".toList.idxOf? c

/-- The standard engine of `base64`: groups of four characters, of which the last may be padded. -/
def base64Decode : Str → Option Bytes
  | [] => some []
  | [a, b, '=', '='] => do
    let n := (← sextet a) * 64 + (← sextet b)
    if n % 16 = 0 then some [UInt8.ofNat (n / 16)] else none
  | [a, b, c, '='] => do
    let n := ((← sextet a) * 64 + (← sextet b)) * 64 + (← sextet c)
    if n % 4 = 0 then some [UInt8.ofNat (n / 1024), UInt8.ofNat (n / 4)] else none
  | a :: b :: c :: d :: rest => do
    let n := (((← sextet a) * 64 + (← sextet b)) * 64 + (← sextet c)) * 64 + (← sextet d)
    let bytes ← base64Decode rest
    some (UInt8.ofNat (n / 65536) :: UInt8.ofNat (n / 256) :: UInt8.ofNat n :: bytes)
  | _ => none

/-- Of the JSON texts, the notifications without parameters are read: the message is their method. -/
def wireCodec : Codec Str where
  decodedLenEstimate len := (len + 3) / 4 * 3
  decodeSlice text room :=
    match base64Decode text with
    | none => .error .decodeError
    | some bytes => if bytes.length ≤ room then .ok bytes else .error .outputSliceTooSmall
  fromSlice raw :=
    let text := raw.map fun byte => Char.ofNat byte.toNat
    match (Str.stripPrefix "\x7b\"method\":\"".toList text).bind (Str.stripSuffix "\"\x7d".toList) with
    | some method => if method.all Char.isAlpha then .ok method else .error "expected a method".toList
    | none => .error "expected a notification".toList

theorem decodes_of_forall {chunks : List (Str × Bytes)} (h : ∀ chunk ∈ chunks, base64Decode chunk.1 = some chunk.2 ∧
      chunk.1 ≠ [] ∧ chunk.2.length ≤ wireCodec.decodedLenEstimate (Str.byteLen chunk.1)) :
    ∀ chunk ∈ chunks, wireCodec.Decodes chunk.1 chunk.2 := by
  intro chunk hchunk
  obtain ⟨hdecode, hne, hle⟩ := h chunk hchunk
  refine ⟨hne, hle, fun room hroom => ?_⟩
  rw [wireCodec]
  dsimp only
  rw [hdecode]
  exact if_pos hroom

def initialized (seqId : Nat) : ChunkedMessage wireCodec where
  seqId := seqId
  message := "initialized".toList
  chunks := [("eyJtZXRob2QiOiJp".toList, Str.asciiBytes "\x7b\"method\":\"i".toList),
    ("bml0aWFsaXplZCJ9".toList, Str.asciiBytes "nitialized\"\x7d".toList)]
  decodes := decodes_of_forall (by decide +kernel)
  count_pos := by decide
  count_le := by decide
  size_pos := by decide
  size_le := by decide
  fromSlice := by decide +kernel

def exit (seqId : Nat) : ChunkedMessage wireCodec where
  seqId := seqId
  message := "exit".toList
  chunks := [("eyJtZXRob2Qi".toList, Str.asciiBytes "\x7b\"method\"".toList),
    ("OiJleGl0In0=".toList, Str.asciiBytes ":\"exit\"\x7d".toList)]
  decodes := decodes_of_forall (by decide +kernel)
  count_pos := by decide
  count_le := by decide
  size_pos := by decide
  size_le := by decide
  fromSlice := by decide +kernel

def sendChunk (client : Char) (message : ChunkedMessage wireCodec) (segmentId : Nat) : SentChunk wireCodec where
  clientId := [client]
  message := message
  segmentId := segmentId
  cursor := none
  wireSizeBytes := 200
  now := 0
  wireSizeBytes_le := by decide

/-- Two clients in turns; the first one sends a chunk twice, and a second message behind the complete one. -/
def twoClients : List (SentChunk wireCodec × Option (ChunkedMessage wireCodec)) :=
  [(sendChunk 'c' (initialized 4) 0, none), (sendChunk 'c' (initialized 4) 0, none), (sendChunk 'd' (exit 1) 0, none),
    (sendChunk 'c' (initialized 4) 1, some (initialized 4)), (sendChunk 'd' (exit 1) 1, some (exit 1)),
    (sendChunk 'c' (exit 5) 0, none), (sendChunk 'c' (exit 5) 1, some (exit 5))]

theorem interleaving_twoClients : Interleaving False (fun _ => {}) twoClients := by
  refine .cons (.start ?_) (.cons (.again ?_) (.cons (.start ?_) (.cons (.next ?_ ?_) (.cons (.next ?_ ?_)
    (.cons (.start fun older count hcurrent => ?_) (.cons (.next ?_ ?_) (.nil _)))))))
  · simp
  · simp [sendChunk]
  · simp [sendChunk]
  · simp [sendChunk]
  · decide
  · simp [sendChunk]
  · decide
  · have hcomplete : some (initialized 4, 2) = some (older, count) := by simpa [sendChunk] using hcurrent
    obtain ⟨rfl, rfl⟩ := Prod.mk.inj (Option.some.inj hcomplete)
    exact ⟨by decide, fun hincomplete => absurd hincomplete (by decide)⟩
  · simp [sendChunk]
  · decide

theorem receiveAll_interleaving_twoClients :
    WebsocketState.receiveAll (fun _ => ['s']) {} (twoClients.map Prod.fst) =
      [none, none, none, some ((initialized 4).delivery ['c'] ['s'] none), some ((exit 1).delivery ['d'] ['s'] none),
        none, some ((exit 5).delivery ['c'] ['s'] none)] := by
  refine receiveAll_interleaving (fun _ => ['s']) (show [['c'], ['d']].length ≤ _ by decide) interleaving_twoClients ?_
  simp [twoClients, sendChunk]

/-- The first message is given up for the second, which is complete and is not forwarded. -/
theorem receiveAll_givenUp : Interleaving True (fun _ => {}) [(sendChunk 'c' (initialized 4) 0, none),
        (sendChunk 'c' (exit 5) 0, none), (sendChunk 'c' (exit 5) 1, some (exit 5))] ∧
      WebsocketState.receiveAll (fun _ => ['s']) {} [sendChunk 'c' (initialized 4) 0, sendChunk 'c' (exit 5) 0,
        sendChunk 'c' (exit 5) 1] = [none, none, none] := by
  constructor
  · refine .cons (.start ?_) (.cons (.start fun older count hcurrent => ?_) (.cons (.next ?_ ?_) (.nil _)))
    · simp
    · have hfirst : some (initialized 4, 1) = some (older, count) := by simpa [sendChunk] using hcurrent
      obtain ⟨rfl, rfl⟩ := Prod.mk.inj (Option.some.inj hfirst)
      exact ⟨by decide, fun _ => trivial⟩
    · simp [sendChunk]
    · decide
  · decide +kernel

end Dcode.RemoteControl
