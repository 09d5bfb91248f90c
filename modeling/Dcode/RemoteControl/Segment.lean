import Dcode.Lib.Str
import Mathlib.Data.List.AList

/-!
# Reassembling segmented client messages

`ClientSegmentReassembler` of `codex-rs/app-server-transport/src/transport/remote_control/segment.rs`, with the client
envelopes of `protocol.rs`. Hash maps are association lists, and an `Instant` is the number that the clock shows.
-/

namespace Dcode.RemoteControl

open Str (byteLen)

/-! ## Envelopes -/

abbrev ClientId := Str

abbrev StreamId := Str

/-- `ClientEvent`, with the messages of type `M`. -/
inductive ClientEvent (M : Type) where
  | clientMessage (message : M)
  | clientMessageChunk (segmentId segmentCount messageSizeBytes : Nat) (messageChunkBase64 : Str)
  | ack (segmentId : Option Nat)
  | ping
  | clientClosed
deriving DecidableEq

structure ClientEnvelope (M : Type) where
  event : ClientEvent M
  clientId : ClientId
  streamId : Option StreamId
  seqId : Option Nat
  cursor : Option Str
deriving DecidableEq

/-! ## What other crates decode -/

/-- `base64::DecodeSliceError`, with the kinds of `DecodeError` as one. -/
inductive DecodeSliceError where
  | decodeError
  | outputSliceTooSmall
deriving DecidableEq

/-- The decoders of `base64` and `serde_json`: `decoded_len_estimate`, `decode_slice` into a slice of some length, and
`from_slice`, whose error is its text. -/
structure Codec (M : Type) where
  decodedLenEstimate : Nat → Nat
  decodeSlice : Str → Nat → Except DecodeSliceError Bytes
  fromSlice : Bytes → Except Str M

/-! ## Assemblies -/

def remoteControlSegmentMaxBytes : Nat := 150 * 1024

def remoteControlReassembledMaxBytes : Nat := 100 * 1024 * 1024

def remoteControlSegmentCountMax : Nat := 1024

def remoteControlSegmentAssemblyMaxCount : Nat := 128

structure ClientSegmentMetadata where
  seqId : Nat
  segmentCount : Nat
  messageSizeBytes : Nat
deriving DecidableEq

structure ClientSegmentAssembly where
  streamId : StreamId
  metadata : ClientSegmentMetadata
  raw : Bytes
  nextSegmentId : Nat
  lastChunkSeenAt : Nat
deriving DecidableEq

structure ClientSegmentReassembler where
  assemblies : AList fun _ : ClientId => ClientSegmentAssembly := ∅

inductive ClientSegmentObservation (M : Type) where
  | forward (envelope : ClientEnvelope M)
  | pending
  | dropped
deriving DecidableEq

inductive AssemblyUpdate (M : Type) where
  | pending
  | ignore
  | drop
  | complete (message : M)
deriving DecidableEq

def ClientSegmentMetadata.fromEnvelope {M : Type} (envelope : ClientEnvelope M) : Option ClientSegmentMetadata :=
  match envelope.event with
  | .clientMessageChunk _ segmentCount messageSizeBytes _ =>
    envelope.seqId.map fun seqId => { seqId, segmentCount, messageSizeBytes }
  | _ => none

/-- The start of an assembly. -/
def ClientSegmentAssembly.new (streamId : StreamId) (metadata : ClientSegmentMetadata) (now : Nat) :
    ClientSegmentAssembly where
  streamId := streamId
  metadata := metadata
  raw := []
  nextSegmentId := 0
  lastChunkSeenAt := now

/-- What `observe` does with the assembly of the client: the chunk is checked against it and decoded behind what it
holds. -/
def ClientSegmentAssembly.update {M : Type} (codec : Codec M) (assembly : ClientSegmentAssembly)
    (metadata : ClientSegmentMetadata) (segmentId : Nat) (messageChunkBase64 : Str) (now : Nat) :
    ClientSegmentAssembly × AssemblyUpdate M :=
  if metadata.seqId < assembly.metadata.seqId then (assembly, .ignore)
  else if assembly.metadata ≠ metadata then (assembly, .drop)
  else if segmentId < assembly.nextSegmentId then (assembly, .pending)
  else if segmentId ≠ assembly.nextSegmentId then (assembly, .drop)
  else
    let chunkStart := assembly.raw.length
    let decodedChunkLen := codec.decodedLenEstimate (byteLen messageChunkBase64)
    let chunkEnd := min metadata.messageSizeBytes (chunkStart + decodedChunkLen)
    match codec.decodeSlice messageChunkBase64 (chunkEnd - chunkStart) with
    | .ok decoded =>
      let assembly :=
        { assembly with
          raw := assembly.raw ++ decoded
          nextSegmentId := assembly.nextSegmentId + 1
          lastChunkSeenAt := now }
      if assembly.nextSegmentId < metadata.segmentCount then (assembly, .pending)
      else if assembly.raw.length ≠ metadata.messageSizeBytes then (assembly, .drop)
      else
        match codec.fromSlice assembly.raw with
        | .ok message => (assembly, .complete message)
        | .error _ => (assembly, .drop)
    | .error _ => ({ assembly with lastChunkSeenAt := now }, .drop)

namespace ClientSegmentReassembler

variable (self : ClientSegmentReassembler)

def shouldIgnoreChunk (clientId : ClientId) (streamId : StreamId) (seqId segmentId : Nat) : Bool :=
  (self.assemblies.lookup clientId).any fun assembly =>
    assembly.streamId == streamId &&
      (seqId < assembly.metadata.seqId || (seqId == assembly.metadata.seqId && segmentId < assembly.nextSegmentId))

def removeAssembly (clientId : ClientId) (streamId : StreamId) : ClientSegmentReassembler :=
  if (self.assemblies.lookup clientId).any fun assembly => assembly.streamId == streamId then
    { assemblies := self.assemblies.erase clientId }
  else self

/-- The client whose last chunk is the oldest. -/
def oldestClient : Option ClientId :=
  (self.assemblies.entries.argmin fun entry => entry.2.lastChunkSeenAt).map Sigma.fst

/-- The loop of `ClientSegmentReassembler::evict_assemblies_if_full`: every turn removes one assembly, so that their
number bounds the turns. -/
def evictLoop : Nat → ClientSegmentReassembler → ClientSegmentReassembler
  | 0, self => self
  | turns + 1, self =>
    if self.assemblies.keys.length ≥ remoteControlSegmentAssemblyMaxCount then
      match self.oldestClient with
      | some clientId => evictLoop turns { assemblies := self.assemblies.erase clientId }
      | none => self
    else self

def evictAssembliesIfFull : ClientSegmentReassembler :=
  evictLoop self.assemblies.keys.length self

/-- The assembly that a chunk goes to: that of the client, or a new one where it has none or its stream changed. -/
def prepareAssembly (clientId : ClientId) (streamId : StreamId)
    (metadata : ClientSegmentMetadata) (now : Nat) : ClientSegmentReassembler :=
  match self.assemblies.lookup clientId with
  | some assembly =>
    if assembly.streamId ≠ streamId then
      { assemblies := self.assemblies.insert clientId (.new streamId metadata now) }
    else self
  | none =>
    { assemblies := self.evictAssembliesIfFull.assemblies.insert clientId (.new streamId metadata now) }

/-- The chunk with its numbers checked, in `observe`. -/
def observeChunk {M : Type} (codec : Codec M) (self : ClientSegmentReassembler) (envelope : ClientEnvelope M)
    (streamId : StreamId) (metadata : ClientSegmentMetadata) (segmentId : Nat) (messageChunkBase64 : Str) (now : Nat) :
    ClientSegmentReassembler × ClientSegmentObservation M :=
  let self := self.prepareAssembly envelope.clientId streamId metadata now
  match self.assemblies.lookup envelope.clientId with
  | none => (self, .dropped)
  | some assembly =>
    let (assembly, result) := assembly.update codec metadata segmentId messageChunkBase64 now
    let self : ClientSegmentReassembler := { assemblies := self.assemblies.insert envelope.clientId assembly }
    match result with
    | .pending => (self, .pending)
    | .ignore => (self, .dropped)
    | .drop => (self.removeAssembly envelope.clientId streamId, .dropped)
    | .complete message =>
      (self.removeAssembly envelope.clientId streamId, .forward { envelope with event := .clientMessage message })

def observe {M : Type} (codec : Codec M) (self : ClientSegmentReassembler) (envelope : ClientEnvelope M) (now : Nat) :
    ClientSegmentReassembler × ClientSegmentObservation M :=
  match envelope.event with
  | .clientMessageChunk segmentId segmentCount messageSizeBytes messageChunkBase64 =>
    match ClientSegmentMetadata.fromEnvelope envelope, envelope.streamId with
    | some metadata, some streamId =>
      if self.shouldIgnoreChunk envelope.clientId streamId metadata.seqId segmentId then (self, .dropped)
      else if segmentCount = 0 ∨ segmentCount > remoteControlSegmentCountMax ∨ segmentId ≥ segmentCount ∨
          messageSizeBytes = 0 ∨ messageSizeBytes > remoteControlReassembledMaxBytes ∨ messageChunkBase64.isEmpty then
        (self.removeAssembly envelope.clientId streamId, .dropped)
      else self.observeChunk codec envelope streamId metadata segmentId messageChunkBase64 now
    | _, _ => (self, .dropped)
  | _ => (self, .forward envelope)

end ClientSegmentReassembler

end Dcode.RemoteControl
