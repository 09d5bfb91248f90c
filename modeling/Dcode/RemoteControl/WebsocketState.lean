import Dcode.RemoteControl.Segment

/-!
# The state of the websocket

What `WebsocketState` of `codex-rs/app-server-transport/src/transport/remote_control/websocket.rs` does with the envelopes
of the clients, and the part of the read loop that calls it. The numbers of the outgoing messages
(`next_seq_id_by_stream`) are not read here.
-/

namespace Dcode.RemoteControl

/-! ## The outbound buffer -/

/-- What an acknowledgement reads of a `ServerEnvelope`. -/
structure ServerEnvelope where
  seqId : Nat
  segmentId : Option Nat
deriving DecidableEq

structure BoundedOutboundBuffer where
  bufferByStream : AList fun _ : ClientId × StreamId => List ServerEnvelope := ∅
  used : Nat := 0

/-- An envelope is acknowledged by a cursor; without a segment all of its segments are. -/
def ServerEnvelope.isAcked (envelope : ServerEnvelope) (ackedSeqId : Nat) (ackedSegmentId : Option Nat) : Bool :=
  envelope.seqId < ackedSeqId ||
    (envelope.seqId == ackedSeqId && ackedSegmentId.all fun segmentId => envelope.segmentId.getD 0 ≤ segmentId)

def BoundedOutboundBuffer.ack (self : BoundedOutboundBuffer) (clientId : ClientId) (streamId : StreamId)
    (ackedSeqId : Nat) (ackedSegmentId : Option Nat) : BoundedOutboundBuffer :=
  match self.bufferByStream.lookup (clientId, streamId) with
  | none => self
  | some buffer =>
    let retained := buffer.filter fun envelope => !envelope.isAcked ackedSeqId ackedSegmentId
    { used := self.used - (buffer.length - retained.length)
      bufferByStream :=
        if retained.isEmpty then self.bufferByStream.erase (clientId, streamId)
        else self.bufferByStream.insert (clientId, streamId) retained }

/-! ## Client messages -/

structure WebsocketState where
  outboundBuffer : BoundedOutboundBuffer := {}
  subscribeCursor : Option Str := none
  lastCompletedClientChunkSeqIdByStream : AList fun _ : ClientId × Option StreamId => Nat := ∅
  clientSegmentReassembler : ClientSegmentReassembler := {}

def clientMessageKey {M : Type} (clientEnvelope : ClientEnvelope M) : Option ((ClientId × Option StreamId) × Nat) :=
  match clientEnvelope.event, clientEnvelope.seqId with
  | .clientMessageChunk _ _ _ _, some seqId => some ((clientEnvelope.clientId, clientEnvelope.streamId), seqId)
  | _, _ => none

namespace WebsocketState

variable {M : Type}

/-- A chunk of a message that was completed already. -/
def isCompleted (self : WebsocketState) (clientEnvelope : ClientEnvelope M) : Bool :=
  (clientMessageKey clientEnvelope).any fun (key, seqId) =>
    (self.lastCompletedClientChunkSeqIdByStream.lookup key).any fun lastSeqId => lastSeqId ≥ seqId

/-- A chunk that the assembly of the client has, or is older than it. -/
def isIgnored (self : WebsocketState) (clientEnvelope : ClientEnvelope M) : Bool :=
  match clientMessageKey clientEnvelope, clientEnvelope.streamId, clientEnvelope.event with
  | some (_, seqId), some streamId, .clientMessageChunk segmentId _ _ _ =>
    self.clientSegmentReassembler.shouldIgnoreChunk clientEnvelope.clientId streamId seqId segmentId
  | _, _, _ => false

def observeClientMessage (codec : Codec M) (self : WebsocketState) (clientEnvelope : ClientEnvelope M)
    (wireSizeBytes now : Nat) : WebsocketState × ClientSegmentObservation M :=
  if self.isCompleted clientEnvelope then (self, .dropped)
  else if self.isIgnored clientEnvelope then (self, .dropped)
  else if (clientMessageKey clientEnvelope).isSome ∧ wireSizeBytes > remoteControlSegmentMaxBytes then
    match clientEnvelope.streamId with
    | some streamId =>
      ({ self with
          clientSegmentReassembler := self.clientSegmentReassembler.removeAssembly clientEnvelope.clientId streamId },
        .dropped)
    | none => (self, .dropped)
  else
    let (clientSegmentReassembler, observation) := self.clientSegmentReassembler.observe codec clientEnvelope now
    ({ self with clientSegmentReassembler }, observation)

def recordClientMessageDelivery (self : WebsocketState) (clientEnvelope : ClientEnvelope M)
    (clientMessageKey : Option ((ClientId × Option StreamId) × Nat)) : WebsocketState :=
  let self : WebsocketState :=
    { self with subscribeCursor := clientEnvelope.cursor.or self.subscribeCursor }
  let self : WebsocketState :=
    match clientMessageKey with
    | some (key, seqId) =>
      { self with
        lastCompletedClientChunkSeqIdByStream := self.lastCompletedClientChunkSeqIdByStream.insert key seqId }
    | none => self
  match clientEnvelope.event, clientEnvelope.seqId, clientEnvelope.streamId with
  | .ack segmentId, some ackedSeqId, some streamId =>
    { self with outboundBuffer := self.outboundBuffer.ack clientEnvelope.clientId streamId ackedSeqId segmentId }
  | _, _, _ => self

/-- What the read loop does with an envelope: it is observed, and one that is forwarded is handled by the client tracker
and recorded. The envelope that is handled is returned. -/
def receive (codec : Codec M) (self : WebsocketState) (clientEnvelope : ClientEnvelope M) (wireSizeBytes now : Nat) :
    WebsocketState × Option (ClientEnvelope M) :=
  let key := clientMessageKey clientEnvelope
  match self.observeClientMessage codec clientEnvelope wireSizeBytes now with
  | (self, .forward clientEnvelope) => (self.recordClientMessageDelivery clientEnvelope key, some clientEnvelope)
  | (self, _) => (self, none)

end WebsocketState

end Dcode.RemoteControl
