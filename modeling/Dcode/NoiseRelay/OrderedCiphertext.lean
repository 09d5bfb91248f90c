import Dcode.Lib.Str
import Dcode.Lib.SortedAssoc

/-!
# Records in order

`OrderedCiphertextFrames` of `codex-rs/exec-server/src/noise_relay/ordered_ciphertext.rs`: relay records are put in the
order of their numbers before they reach the implicit receive nonce of the session.
-/

namespace Dcode.NoiseRelay

/-- The errors of `ExecServerError` that the relay returns; an error of `serde_json` is its text. -/
inductive ExecServerError where
  | json (error : Str)
  | protocol (message : Str)
deriving DecidableEq

def maxReorderDistance : Nat := 64

def maxPendingBytes : Nat := 1024 * 1024

def maxSeq : Nat := 2 ^ 32 - 1

/-- `OrderedCiphertextFrames`. The numbers are `u32`, which shows in `advance`; the map is its entries in order. -/
structure OrderedCiphertextFrames where
  nextSeq : Nat := 0
  pending : List (Nat × Bytes) := []
  pendingBytes : Nat := 0
deriving DecidableEq

namespace OrderedCiphertextFrames

/-- The error of a call that leaves no number to expect. -/
def exhausted : ExecServerError := .protocol "Noise relay sequence number exhausted".toList

def advance (self : OrderedCiphertextFrames) : Except ExecServerError OrderedCiphertextFrames :=
  if self.nextSeq + 1 ≤ maxSeq then .ok { self with nextSeq := self.nextSeq + 1 }
  else .error exhausted

/-- The frames without the expected record. -/
def removeNext (self : OrderedCiphertextFrames) (payload : Bytes) : OrderedCiphertextFrames :=
  { self with
    pending := SortedAssoc.remove self.nextSeq self.pending
    pendingBytes := self.pendingBytes - payload.length }

def release (self : OrderedCiphertextFrames) (ready : List Bytes) :
    OrderedCiphertextFrames × Except ExecServerError (List Bytes) :=
  match _hpending : SortedAssoc.get self.nextSeq self.pending with
  | none => (self, .ok ready)
  | some payload =>
    match _hadvance : (self.removeNext payload).advance with
    | .error error => (self.removeNext payload, .error error)
    | .ok advanced => release advanced (ready ++ [payload])
termination_by self.pending.length
decreasing_by
  have hlt := SortedAssoc.length_remove_lt _hpending
  unfold advance at _hadvance
  split at _hadvance
  · obtain rfl := Except.ok.inj _hadvance
    exact hlt
  · cases _hadvance

def push (self : OrderedCiphertextFrames) (seq : UInt32) (payload : Bytes) :
    OrderedCiphertextFrames × Except ExecServerError (List Bytes) :=
  let seq := seq.toNat
  -- the first record of a number is kept
  if seq < self.nextSeq || (SortedAssoc.get seq self.pending).isSome then (self, .ok [])
  else if seq > self.nextSeq then
    if seq - self.nextSeq > maxReorderDistance then
      (self, .error (.protocol "Noise relay ciphertext exceeds reorder window".toList))
    else
      let pendingBytes := self.pendingBytes + payload.length
      if pendingBytes > maxPendingBytes then
        (self, .error (.protocol "Noise relay pending ciphertext buffer is full".toList))
      else ({ self with pending := SortedAssoc.insert seq payload self.pending, pendingBytes }, .ok [])
  else
    match self.advance with
    | .error error => (self, .error error)
    | .ok advanced => advanced.release [payload]

end OrderedCiphertextFrames

/-! ## Runs -/

/-- What a run of calls leaves: the frames, the records of the calls that returned `Ok`, and what these calls
released. -/
structure Run where
  frames : OrderedCiphertextFrames := {}
  accepted : List (Nat × Bytes) := []
  released : List Bytes := []
deriving DecidableEq

/-- One more call. -/
def Run.call (run : Run) (seq : UInt32) (payload : Bytes) : Run :=
  match run.frames.push seq payload with
  | (frames, .ok ready) => ⟨frames, run.accepted ++ [(seq.toNat, payload)], run.released ++ ready⟩
  | (frames, .error _) => { run with frames }

/-- A run of calls. -/
def Run.calls (run : Run) (calls : List (UInt32 × Bytes)) : Run :=
  calls.foldl (fun run call => run.call call.1 call.2) run

/-- What holds between the calls: the expected number is the least that was not accepted, the records below it were
released in order, the first accepted of each number, and those above it are buffered, within the limits. -/
structure Run.Ordered (run : Run) : Prop where
  least : IsLeast {seq | run.accepted.lookup seq = none} run.frames.nextSeq
  released : run.released.map some = (List.range run.frames.nextSeq).map fun seq => run.accepted.lookup seq
  sorted : SortedAssoc.Sorted run.frames.pending
  pending : ∀ seq, SortedAssoc.get seq run.frames.pending =
    if run.frames.nextSeq < seq then run.accepted.lookup seq else none
  window : ∀ record ∈ run.frames.pending, record.1 ≤ run.frames.nextSeq + maxReorderDistance
  pending_le : ∀ record ∈ run.frames.pending, record.1 ≤ maxSeq
  pendingBytes : run.frames.pendingBytes = (run.frames.pending.map fun record => record.2.length).sum
  pendingBytes_le : run.frames.pendingBytes ≤ maxPendingBytes
  nextSeq_le : run.frames.nextSeq ≤ maxSeq

/-- The record is the expected one and every number behind it is buffered, up to the last: there is no number left to
expect. -/
def OrderedCiphertextFrames.Exhausts (self : OrderedCiphertextFrames) (seq : UInt32) : Prop :=
  seq.toNat = self.nextSeq ∧ self.nextSeq < maxSeq ∧
    ∀ later, self.nextSeq < later → later ≤ maxSeq → (SortedAssoc.get later self.pending).isSome

/-- No call of the run exhausts the numbers. -/
def Run.NeverExhausts : Run → List (UInt32 × Bytes) → Prop
  | _, [] => True
  | run, (seq, payload) :: calls => ¬ run.frames.Exhausts seq ∧ (run.call seq payload).NeverExhausts calls

end Dcode.NoiseRelay
