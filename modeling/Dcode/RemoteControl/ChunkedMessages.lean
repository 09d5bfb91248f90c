import Dcode.RemoteControl.WebsocketState

/-!
# Clients that send messages in chunks

What the clients do, apart from how the server takes it: every client has one stream, and on it messages with
increasing numbers whose chunks are sent in order. Chunks may be sent again, and a message may be given up for a later
one.
-/

namespace Dcode.RemoteControl

open Str (byteLen)

variable {M : Type}

/-! ## Messages -/

/-- A text that is not empty and that `base64` decodes to the bytes wherever there is room for them, which the estimate of
the length leaves. -/
structure Codec.Decodes (codec : Codec M) (text : Str) (bytes : Bytes) : Prop where
  ne_nil : text ≠ []
  le_estimate : bytes.length ≤ codec.decodedLenEstimate (byteLen text)
  decodeSlice : ∀ room, bytes.length ≤ room → codec.decodeSlice text room = .ok bytes

/-- A message in chunks, each with the text that is sent and the bytes it stands for. -/
structure ChunkedMessage (codec : Codec M) where
  seqId : Nat
  message : M
  chunks : List (Str × Bytes)
  decodes : ∀ chunk ∈ chunks, codec.Decodes chunk.1 chunk.2
  count_pos : 0 < chunks.length
  count_le : chunks.length ≤ remoteControlSegmentCountMax
  size_pos : 0 < (chunks.flatMap Prod.snd).length
  size_le : (chunks.flatMap Prod.snd).length ≤ remoteControlReassembledMaxBytes
  fromSlice : codec.fromSlice (chunks.flatMap Prod.snd) = .ok message

namespace ChunkedMessage

variable {codec : Codec M} (message : ChunkedMessage codec)

/-- The bytes of the first chunks. -/
def firstBytes (count : Nat) : Bytes := (message.chunks.take count).flatMap Prod.snd

/-- The envelope of a chunk. -/
def envelope (clientId : ClientId) (streamId : StreamId) (cursor : Option Str)
    (segmentId : Nat) : ClientEnvelope M where
  event := .clientMessageChunk segmentId message.chunks.length (message.chunks.flatMap Prod.snd).length
    ((message.chunks.map Prod.fst).getD segmentId [])
  clientId := clientId
  streamId := some streamId
  seqId := some message.seqId
  cursor := cursor

/-- The message where the chunk is its last one. -/
def completedBy (segmentId : Nat) : Option (ChunkedMessage codec) :=
  if segmentId + 1 = message.chunks.length then some message else none

/-- The envelope that the whole message is forwarded in. -/
def delivery (clientId : ClientId) (streamId : StreamId) (cursor : Option Str) : ClientEnvelope M where
  event := .clientMessage message.message
  clientId := clientId
  streamId := some streamId
  seqId := some message.seqId
  cursor := cursor

end ChunkedMessage

/-! ## Clients -/

/-- A client: the message it is at, with the number of chunks that were sent, and every chunk that was sent. -/
structure Sender (codec : Codec M) where
  current : Option (ChunkedMessage codec × Nat) := none
  sent : List (ChunkedMessage codec × Nat) := []

/-- A chunk is sent: the next one of the message, the first of a later message, or one that was sent before. A message
that is not complete is given up for a later one only where `mayGiveUp`. With it comes the message that the chunk
completes. -/
inductive Sender.Sends {codec : Codec M} (mayGiveUp : Prop) :
    Sender codec → ChunkedMessage codec → Nat → Option (ChunkedMessage codec) → Sender codec → Prop where
  | next {sender : Sender codec} {message : ChunkedMessage codec} {count : Nat}
      (hcurrent : sender.current = some (message, count)) (hcount : count < message.chunks.length) :
      Sends mayGiveUp sender message count (message.completedBy count)
        { current := some (message, count + 1), sent := (message, count) :: sender.sent }
  | start {sender : Sender codec} {message : ChunkedMessage codec}
      (hlater : ∀ older count, sender.current = some (older, count) →
        older.seqId < message.seqId ∧ (count < older.chunks.length → mayGiveUp)) :
      Sends mayGiveUp sender message 0 (message.completedBy 0)
        { current := some (message, 1), sent := (message, 0) :: sender.sent }
  | again {sender : Sender codec} {message : ChunkedMessage codec} {segmentId : Nat}
      (hsent : (message, segmentId) ∈ sender.sent) : Sends mayGiveUp sender message segmentId none sender

structure SentChunk (codec : Codec M) where
  clientId : ClientId
  message : ChunkedMessage codec
  segmentId : Nat
  cursor : Option Str
  wireSizeBytes : Nat
  now : Nat
  wireSizeBytes_le : wireSizeBytes ≤ remoteControlSegmentMaxBytes

/-- The clients send chunks, in any order between them. Each chunk comes with the message that it completes. -/
inductive Interleaving {codec : Codec M} (mayGiveUp : Prop) :
    (ClientId → Sender codec) → List (SentChunk codec × Option (ChunkedMessage codec)) → Prop where
  | nil (senders : ClientId → Sender codec) : Interleaving mayGiveUp senders []
  | cons {senders : ClientId → Sender codec} {chunk : SentChunk codec} {completed : Option (ChunkedMessage codec)}
      {sender' : Sender codec} {chunks : List (SentChunk codec × Option (ChunkedMessage codec))}
      (hsends : (senders chunk.clientId).Sends mayGiveUp chunk.message chunk.segmentId completed sender')
      (hrest : Interleaving mayGiveUp (Function.update senders chunk.clientId sender') chunks) :
      Interleaving mayGiveUp senders ((chunk, completed) :: chunks)

/-- The server receives chunks, on the stream that each client has. It gives what is forwarded for each of them. -/
def WebsocketState.receiveAll {codec : Codec M} (streamOf : ClientId → StreamId) :
    WebsocketState → List (SentChunk codec) → List (Option (ClientEnvelope M))
  | _, [] => []
  | self, chunk :: chunks =>
    let envelope := chunk.message.envelope chunk.clientId (streamOf chunk.clientId) chunk.cursor chunk.segmentId
    let (self, forwarded) := self.receive codec envelope chunk.wireSizeBytes chunk.now
    forwarded :: receiveAll streamOf self chunks

end Dcode.RemoteControl
