import Dcode.NoiseRelay.OrderedCiphertext

/-!
# Messages over records

`codex-rs/exec-server/src/noise_relay/message_framing.rs`: a message is sent behind its length, and the bytes are split
into records of bounded size that do not respect its boundaries.
-/

namespace Dcode.NoiseRelay

def lengthPrefixBytes : Nat := 4

def maxNoiseJsonrpcMessageLen : Nat := 64 * 1024 * 1024

def noiseRecordPlaintextLen : Nat := 60 * 1024

/-- What `serde_json` does with the messages: a text for each, and what a text is read as. An error is its text. -/
structure MessageJson (M : Type) where
  toVec : M → Except Str Bytes
  fromSlice : Bytes → Except Str M

/-- `serde_json` reads a message back from its text, and reads nothing from no text at all. -/
structure MessageJson.RoundTrips {M : Type} (json : MessageJson M) : Prop where
  fromSlice_toVec : ∀ message text, json.toVec message = .ok text → json.fromSlice text = .ok message
  fromSlice_nil : ∀ message, json.fromSlice [] ≠ .ok message

def toBeBytes (n : Nat) : Bytes :=
  [UInt8.ofNat (n / 2 ^ 24), UInt8.ofNat (n / 2 ^ 16), UInt8.ofNat (n / 2 ^ 8), UInt8.ofNat n]

def fromBeBytes (b0 b1 b2 b3 : UInt8) : Nat :=
  b0.toNat * 2 ^ 24 + b1.toNat * 2 ^ 16 + b2.toNat * 2 ^ 8 + b3.toNat

def frameJsonrpcMessage {M : Type} (json : MessageJson M) (message : M) : Except ExecServerError Bytes :=
  match json.toVec message with
  | .error error => .error (.json error)
  | .ok text =>
    if text.length > maxNoiseJsonrpcMessageLen then
      .error (.protocol "Noise relay JSON-RPC message exceeds maximum length".toList)
    else .ok (toBeBytes (text.length % 2 ^ 32) ++ text)

/-- The frames of messages, one for each. -/
def FramedAs {M : Type} (json : MessageJson M) : List M → List Bytes → Prop :=
  List.Forall₂ fun message frame => frameJsonrpcMessage json message = .ok frame

structure JsonRpcMessageDecoder where
  buffered : Bytes := []
deriving DecidableEq

def declaredLen : Bytes → Option Nat
  | b0 :: b1 :: b2 :: b3 :: _ => some (fromBeBytes b0 b1 b2 b3)
  | _ => none

namespace JsonRpcMessageDecoder

variable {M : Type}

/-- The bytes of a record behind those that are buffered. -/
def extend (self : JsonRpcMessageDecoder) (plaintextRecord : Bytes) : JsonRpcMessageDecoder where
  buffered := self.buffered ++ plaintextRecord

/-- The loop of `JsonRpcMessageDecoder::push`. -/
def decode (json : MessageJson M) (self : JsonRpcMessageDecoder) (messages : List M) :
    JsonRpcMessageDecoder × Except ExecServerError (List M) :=
  match declaredLen self.buffered with
  | none => (self, .ok messages)
  | some messageLen =>
    if messageLen = 0 ∨ messageLen > maxNoiseJsonrpcMessageLen then
      (self, .error (.protocol "Noise relay JSON-RPC message has invalid length".toList))
    else
      let framedLen := lengthPrefixBytes + messageLen
      if _hlen : self.buffered.length < framedLen then (self, .ok messages)
      else
        match json.fromSlice ((self.buffered.take framedLen).drop lengthPrefixBytes) with
        | .error error => (self, .error (.json error))
        | .ok message => decode json { buffered := self.buffered.drop framedLen } (messages ++ [message])
termination_by self.buffered.length
decreasing_by
  have hpos : 0 < framedLen := Nat.lt_of_lt_of_le (by decide) (Nat.le_add_right lengthPrefixBytes messageLen)
  rw [List.length_drop]
  omega

def push (json : MessageJson M) (self : JsonRpcMessageDecoder) (plaintextRecord : Bytes) :
    JsonRpcMessageDecoder × Except ExecServerError (List M) :=
  if plaintextRecord.length > noiseRecordPlaintextLen then
    (self, .error (.protocol "Noise relay plaintext record exceeds maximum length".toList))
  else
    match (self.extend plaintextRecord).decode json [] with
    | (self, .error error) => (self, .error error)
    | (self, .ok messages) =>
      if self.buffered.length > lengthPrefixBytes + maxNoiseJsonrpcMessageLen then
        (self, .error (.protocol "Noise relay JSON-RPC reassembly buffer exceeds maximum length".toList))
      else (self, .ok messages)

/-- The records of a session one after the other, up to the first error, which ends it. -/
def pushAll (json : MessageJson M) (self : JsonRpcMessageDecoder) :
    List Bytes → JsonRpcMessageDecoder × Except ExecServerError (List M)
  | [] => (self, .ok [])
  | record :: records =>
    match self.push json record with
    | (self, .error error) => (self, .error error)
    | (self, .ok messages) =>
      match self.pushAll json records with
      | (self, .error error) => (self, .error error)
      | (self, .ok messages') => (self, .ok (messages ++ messages'))

end JsonRpcMessageDecoder

end Dcode.NoiseRelay
