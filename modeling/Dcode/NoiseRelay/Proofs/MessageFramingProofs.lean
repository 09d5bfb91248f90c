import Dcode.Lib.Framing
import Dcode.NoiseRelay.MessageFraming

/-!
# Messages come back from their records

The decoder takes the complete frames off what has arrived of a stream and keeps the part of the next one
(`decode_cut`), so that it does not matter how the stream is split into records.
-/

namespace Dcode.NoiseRelay

open List

open Framing (Cut)

/-! ## Frames -/

theorem declaredLen_toBeBytes {n : Nat} (h : n < 2 ^ 32) (rest : Bytes) : declaredLen (toBeBytes n ++ rest) = some n := by
  have hsum : fromBeBytes (UInt8.ofNat (n / 2 ^ 24)) (UInt8.ofNat (n / 2 ^ 16)) (UInt8.ofNat (n / 2 ^ 8))
      (UInt8.ofNat n) = n := by
    simp only [fromBeBytes, UInt8.toNat_ofNat']
    omega
  simp only [toBeBytes, cons_append, declaredLen, hsum]

theorem declaredLen_eq_none {bytes : Bytes} (h : bytes.length < lengthPrefixBytes) : declaredLen bytes = none := by
  unfold lengthPrefixBytes at h
  rcases bytes with _ | ⟨b0, _ | ⟨b1, _ | ⟨b2, _ | ⟨b3, rest⟩⟩⟩⟩
  case cons.cons.cons.cons =>
    simp only [length_cons] at h
    omega
  all_goals rfl

theorem declaredLen_append {bytes : Bytes} (h : lengthPrefixBytes ≤ bytes.length) (more : Bytes) :
    declaredLen (bytes ++ more) = declaredLen bytes := by
  unfold lengthPrefixBytes at h
  rcases bytes with _ | ⟨b0, _ | ⟨b1, _ | ⟨b2, _ | ⟨b3, rest⟩⟩⟩⟩
  case cons.cons.cons.cons => rfl
  all_goals
    simp only [length_cons, length_nil] at h
    omega

structure Frame {M : Type} (json : MessageJson M) (message : M) (frame text : Bytes) : Prop where
  frame_eq : frame = toBeBytes text.length ++ text
  fromSlice : json.fromSlice text = .ok message
  pos : 0 < text.length
  le : text.length ≤ maxNoiseJsonrpcMessageLen

section

variable {M : Type} {json : MessageJson M} {message : M} {frame text : Bytes}

theorem exists_frame (hjson : json.RoundTrips) (h : frameJsonrpcMessage json message = .ok frame) :
    ∃ text, Frame json message frame text := by
  unfold frameJsonrpcMessage at h
  split at h
  · cases h
  next text htext =>
    split at h
    · cases h
    next hle =>
      have hread := hjson.fromSlice_toVec message text htext
      have hne : text ≠ [] := by
        rintro rfl
        exact hjson.fromSlice_nil message hread
      have hmod : text.length % 2 ^ 32 = text.length := by
        unfold maxNoiseJsonrpcMessageLen at hle
        omega
      rw [hmod] at h
      exact ⟨text, (Except.ok.inj h).symm, hread, length_pos_iff.mpr hne, not_lt.mp hle⟩

section

variable (h : Frame json message frame text)

include h

theorem Frame.length_eq : frame.length = lengthPrefixBytes + text.length := by
  rw [h.frame_eq, length_append]
  rfl

theorem Frame.declaredLen_append (rest : Bytes) : declaredLen (frame ++ rest) = some text.length := by
  have hle := h.le
  unfold maxNoiseJsonrpcMessageLen at hle
  rw [h.frame_eq]
  exact declaredLen_toBeBytes (by omega) _

theorem Frame.valid : ¬ (text.length = 0 ∨ text.length > maxNoiseJsonrpcMessageLen) := by
  have hpos := h.pos
  have hle := h.le
  omega

end

namespace JsonRpcMessageDecoder

theorem decode_frame (h : Frame json message frame text) (rest : Bytes) (messages : List M) :
    decode json ⟨frame ++ rest⟩ messages = decode json ⟨rest⟩ (messages ++ [message]) := by
  have hlen := h.length_eq
  have htext : ((frame ++ rest).take (lengthPrefixBytes + text.length)).drop lengthPrefixBytes = text := by
    rw [← hlen, take_left, h.frame_eq]
    rfl
  have hrest : (frame ++ rest).drop (lengthPrefixBytes + text.length) = rest := by
    rw [← hlen, drop_left]
  have hcomplete : ¬ (frame ++ rest).length < lengthPrefixBytes + text.length := by
    rw [length_append]
    omega
  rw [decode]
  simp only [h.declaredLen_append rest, if_neg h.valid, dif_neg hcomplete, htext, hrest, h.fromSlice]

theorem decode_part (h : Frame json message frame text) {part : Bytes} (hpart : part <+: frame)
    (hlt : part.length < frame.length) (messages : List M) : decode json ⟨part⟩ messages = (⟨part⟩, .ok messages) := by
  rw [decode]
  by_cases hheader : part.length < lengthPrefixBytes
  · rw [declaredLen_eq_none hheader]
  · obtain ⟨more, rfl⟩ := hpart
    have hdeclared : declaredLen part = some text.length := by
      have hframe := h.declaredLen_append []
      rw [append_nil, declaredLen_append (not_lt.mp hheader)] at hframe
      exact hframe
    have hincomplete : part.length < lengthPrefixBytes + text.length := by
      rw [← h.length_eq]
      exact hlt
    simp only [hdeclared, if_neg h.valid, dif_pos hincomplete]

end JsonRpcMessageDecoder

end

/-! ## Streams -/

section

variable {M : Type} {json : MessageJson M}

variable {messages : List M}

/-- The frames that are complete are those of the first messages. -/
theorem FramedAs.split {done todo : List Bytes} (h : FramedAs json messages (done ++ todo)) :
    ∃ first rest, messages = first ++ rest ∧ FramedAs json first done ∧ FramedAs json rest todo :=
  ⟨messages.take done.length, messages.drop done.length, (take_append_drop _ _).symm,
    forall₂_take_append _ _ _ h, forall₂_drop_append _ _ _ h⟩

theorem FramedAs.length_le (hjson : json.RoundTrips) {frames : List Bytes} (h : FramedAs json messages frames)
    {frame : Bytes} (hmem : frame ∈ frames) :
    frame.length ≤ lengthPrefixBytes + maxNoiseJsonrpcMessageLen := by
  induction h with
  | nil => cases hmem
  | @cons message next messages frames hframe _ ih =>
    rcases mem_cons.mp hmem with rfl | hmem
    · obtain ⟨text, htext⟩ := exists_frame hjson hframe
      have hle := htext.le
      rw [htext.length_eq]
      omega
    · exact ih hmem

theorem exists_framedAs
    (h : ∀ message ∈ messages, ∃ text, json.toVec message = .ok text ∧ text.length ≤ maxNoiseJsonrpcMessageLen) :
    ∃ frames, FramedAs json messages frames := by
  induction messages with
  | nil => exact ⟨[], .nil⟩
  | cons message messages ih =>
    rw [forall_mem_cons] at h
    obtain ⟨⟨text, htext, hle⟩, hrest⟩ := h
    obtain ⟨frames, hframes⟩ := ih hrest
    have hframe : frameJsonrpcMessage json message = .ok (toBeBytes (text.length % 2 ^ 32) ++ text) := by
      rw [frameJsonrpcMessage, htext]
      exact if_neg (not_lt.mpr hle)
    exact ⟨_, .cons hframe hframes⟩

/-- What stays buffered is less than the largest frame. -/
theorem tail_length_lt (hjson : json.RoundTrips) {frames done todo : List Bytes} {received tail : Bytes}
    (hcut : Cut frames received done todo tail) (h : FramedAs json messages todo) :
    tail.length < lengthPrefixBytes + maxNoiseJsonrpcMessageLen := by
  cases todo with
  | nil =>
    rw [hcut.tail_eq_nil]
    decide
  | cons frame rest =>
    have hlt := hcut.incomplete frame rest rfl
    have hle := h.length_le hjson mem_cons_self
    omega

namespace JsonRpcMessageDecoder

theorem decode_done (hjson : json.RoundTrips) {first : List M} {done : List Bytes} (h : FramedAs json first done)
    (tail : Bytes) (messages : List M) :
    decode json ⟨done.flatten ++ tail⟩ messages = decode json ⟨tail⟩ (messages ++ first) := by
  induction h generalizing messages with
  | nil => rw [flatten_nil, nil_append, append_nil]
  | @cons message frame first done hframe _ ih =>
    obtain ⟨text, htext⟩ := exists_frame hjson hframe
    rw [flatten_cons, append_assoc, decode_frame htext, ih, append_assoc]
    rfl

variable {frames todo : List Bytes} {tail : Bytes}

/-- The loop takes the complete frames off and keeps the part of the next one. -/
theorem decode_cut (hjson : json.RoundTrips) {first rest : List M} {done : List Bytes} {received : Bytes}
    (hcut : Cut frames received done todo tail) (hdone : FramedAs json first done) (htodo : FramedAs json rest todo)
    (messages : List M) :
    decode json ⟨received⟩ messages = (⟨tail⟩, .ok (messages ++ first)) := by
  rw [hcut.received_eq, decode_done hjson hdone]
  cases htodo with
  | nil =>
    rw [hcut.tail_eq_nil, decode]
    rfl
  | cons hframe _ =>
    obtain ⟨text, htext⟩ := exists_frame hjson hframe
    exact decode_part htext hcut.tail_prefix_frame (hcut.incomplete _ _ rfl) _

theorem push_cut (hjson : json.RoundTrips) (h : FramedAs json messages todo) {record : Bytes}
    (hbegins : tail ++ record <+: todo.flatten) (hrecord : record.length ≤ noiseRecordPlaintextLen) :
    ∃ first rest done' todo' tail', messages = first ++ rest ∧ FramedAs json rest todo' ∧
      Cut todo (tail ++ record) done' todo' tail' ∧ push json ⟨tail⟩ record = (⟨tail'⟩, .ok first) := by
  obtain ⟨done', todo', tail', hcut⟩ := Framing.exists_cut hbegins
  obtain ⟨first, rest, hmessages, hfirst, hrest⟩ := (hcut.frames_eq ▸ h).split
  have hdecode : (extend ⟨tail⟩ record).decode json [] = (⟨tail'⟩, .ok first) := decode_cut hjson hcut hfirst hrest []
  have hroom : ¬ tail'.length > lengthPrefixBytes + maxNoiseJsonrpcMessageLen := by
    have hlt := tail_length_lt hjson hcut hrest
    omega
  refine ⟨first, rest, done', todo', tail', hmessages, hrest, hcut, ?_⟩
  rw [push, if_neg (not_lt.mpr hrecord), hdecode]
  exact if_neg hroom

theorem pushAll_cut (hjson : json.RoundTrips) (records : List Bytes) (h : FramedAs json messages todo)
    (hbegins : tail ++ records.flatten <+: todo.flatten)
    (hrecords : ∀ record ∈ records, record.length ≤ noiseRecordPlaintextLen)
    (hstart : ∀ frame rest, todo = frame :: rest → tail.length < frame.length) :
    ∃ first rest done' todo' tail', messages = first ++ rest ∧ FramedAs json rest todo' ∧
      Cut todo (tail ++ records.flatten) done' todo' tail' ∧ pushAll json ⟨tail⟩ records = (⟨tail'⟩, .ok first) := by
  induction records generalizing messages todo tail with
  | nil =>
    rw [flatten_nil, append_nil] at hbegins ⊢
    exact ⟨[], messages, [], todo, tail, rfl, h, ⟨rfl, rfl, hbegins, hstart⟩, rfl⟩
  | cons record records ih =>
    rw [forall_mem_cons] at hrecords
    rw [flatten_cons, ← append_assoc] at hbegins ⊢
    obtain ⟨first, rest, done', todo', tail', rfl, hrest, hcut, hpush⟩ :=
      push_cut hjson h ((prefix_append _ _).trans hbegins) hrecords.1
    obtain ⟨first', rest', done'', todo'', tail'', rfl, hrest', hcut', hpushAll⟩ :=
      ih hrest (hcut.prefix_append hbegins) hrecords.2 hcut.incomplete
    refine ⟨first ++ first', rest', done' ++ done'', todo'', tail'', (append_assoc _ _ _).symm, hrest',
      hcut.append hcut', ?_⟩
    rw [pushAll, hpush]
    dsimp only
    rw [hpushAll]

/-- The start of a stream, split into records, is taken in. -/
theorem pushAll_front (hjson : json.RoundTrips) {front : List Bytes} (h : FramedAs json messages frames)
    (hbegins : front.flatten <+: frames.flatten) (hrecords : ∀ record ∈ front, record.length ≤ noiseRecordPlaintextLen) :
    ∃ first rest done todo tail, messages = first ++ rest ∧ FramedAs json rest todo ∧
      Cut frames front.flatten done todo tail ∧ pushAll json {} front = (⟨tail⟩, .ok first) := by
  have hstart : ∀ frame rest, frames = frame :: rest → ([] : Bytes).length < frame.length := by
    rintro frame rest rfl
    cases h with
    | cons hframe _ =>
      obtain ⟨text, htext⟩ := exists_frame hjson hframe
      have hpos := htext.pos
      rw [htext.length_eq]
      exact Nat.lt_of_lt_of_le hpos (Nat.le_add_left _ _)
  exact pushAll_cut hjson front h hbegins hrecords hstart

/-- Messages that are framed, sent as one stream and split into records come back, and what the decoder buffers is
bounded: between records by the largest frame, with a record taken in by less than one record more. -/
theorem pushAll_framed (hjson : json.RoundTrips) {messages : List M}
    (hfits : ∀ message ∈ messages, ∃ text, json.toVec message = .ok text ∧ text.length ≤ maxNoiseJsonrpcMessageLen) :
    ∃ frames, FramedAs json messages frames ∧ ∀ records : List Bytes, records.flatten = frames.flatten →
        (∀ record ∈ records, record.length ≤ noiseRecordPlaintextLen) →
        pushAll json {} records = ({}, .ok messages) ∧ (∀ front back, records = front ++ back →
            (pushAll json {} front).1.buffered.length ≤ lengthPrefixBytes + maxNoiseJsonrpcMessageLen) ∧
          ∀ front record back, records = front ++ record :: back →
            ((pushAll json {} front).1.extend record).buffered.length <
              lengthPrefixBytes + maxNoiseJsonrpcMessageLen + noiseRecordPlaintextLen := by
  obtain ⟨frames, hframes⟩ := exists_framedAs hfits
  refine ⟨frames, hframes, fun records hstream hrecords => ?_⟩
  have hbuffered : ∀ front back, records = front ++ back →
      (pushAll json {} front).1.buffered.length < lengthPrefixBytes + maxNoiseJsonrpcMessageLen := by
    rintro front back rfl
    have hbegins : front.flatten <+: frames.flatten := by
      rw [← hstream, flatten_append]
      exact prefix_append _ _
    obtain ⟨first, rest, done, todo, tail, -, hrest, hcut, hpush⟩ := pushAll_front hjson hframes hbegins
      fun record hrecord => hrecords record (mem_append_left _ hrecord)
    rw [hpush]
    exact tail_length_lt hjson hcut hrest
  refine ⟨?_, fun front back hsplit => (hbuffered front back hsplit).le, fun front record back hsplit => ?_⟩
  · obtain ⟨first, rest, done, todo, tail, rfl, hrest, hcut, hpush⟩ :=
      pushAll_front hjson hframes (hstream ▸ prefix_rfl) hrecords
    rw [hstream] at hcut
    obtain rfl := hcut.todo_eq_nil
    obtain rfl := hcut.tail_eq_nil
    cases hrest with
    | nil => rw [hpush, append_nil]
  · have hlt := hbuffered front (record :: back) hsplit
    have hrecord : record ∈ records := by
      rw [hsplit]
      exact mem_append_right _ mem_cons_self
    have hle := hrecords record hrecord
    rw [extend, length_append]
    omega

/-- As long as the first frame is not complete, everything stays buffered. -/
theorem pushAll_part (hjson : json.RoundTrips) {front : List Bytes} {frame : Bytes}
    (h : FramedAs json messages (frame :: frames)) (hbegins : front.flatten <+: frame)
    (hlt : front.flatten.length < frame.length) (hrecords : ∀ record ∈ front, record.length ≤ noiseRecordPlaintextLen) :
    (pushAll json {} front).1.buffered = front.flatten := by
  have hstream : front.flatten <+: (frame :: frames).flatten := by
    exact hbegins.trans (prefix_append _ _)
  obtain ⟨first, rest, done, todo, tail, -, -, hcut, hpush⟩ := pushAll_front hjson h hstream hrecords
  have hdone : done = [] := by
    cases done with
    | nil => rfl
    | cons next done =>
      obtain ⟨rfl, -⟩ := cons.inj hcut.frames_eq
      have hlen := congrArg length hcut.received_eq
      rw [flatten_cons, append_assoc, length_append] at hlen
      omega
  have hreceived := hcut.received_eq
  rw [hdone, flatten_nil, nil_append] at hreceived
  rw [hpush, hreceived]

end JsonRpcMessageDecoder

end

/-! ## Two streams -/

def isLetter (b : UInt8) : Bool := (Char.ofNat b.toNat).isLower

/-- A notification without parameters, by the letters of its method. -/
abbrev Notification := { method : Bytes // method.all isLetter = true }

def opening : Bytes := Str.asciiBytes "\x7b\"method\":\"".toList

def closing : Bytes := Str.asciiBytes "\"\x7d".toList

/-- `serde_json` on notifications without parameters. -/
def notificationJson : MessageJson Notification where
  toVec message := .ok (opening ++ message.1 ++ closing)
  fromSlice text :=
    let method := (text.drop opening.length).take (text.length - (opening.length + closing.length))
    if h : method.all isLetter = true ∧ text = opening ++ method ++ closing then .ok ⟨method, h.1⟩
    else .error "expected value".toList

theorem notificationJson_roundTrips : notificationJson.RoundTrips where
  fromSlice_toVec message text htext := by
    obtain rfl := Except.ok.inj htext
    have hmethod : ((opening ++ message.1 ++ closing).drop opening.length).take
        ((opening ++ message.1 ++ closing).length - (opening.length + closing.length)) = message.1 := by
      rw [append_assoc, drop_left, length_append, length_append, Nat.add_comm message.1.length, ← Nat.add_assoc,
        Nat.add_sub_cancel_left, take_left]
    rw [notificationJson]
    simp only [hmethod]
    exact dif_pos ⟨message.2, trivial⟩
  fromSlice_nil message hread := by cases hread

theorem frame_notification {message : Notification} {n : Nat} (hlen : message.1.length + 13 = n)
    (h : n ≤ maxNoiseJsonrpcMessageLen) :
    ∃ frame, frameJsonrpcMessage notificationJson message = .ok frame ∧ frame.length = lengthPrefixBytes + n := by
  have htext : (opening ++ message.1 ++ closing).length = n := by
    rw [length_append, length_append, ← hlen, show opening.length = 11 from rfl, show closing.length = 2 from rfl]
    omega
  refine ⟨toBeBytes ((opening ++ message.1 ++ closing).length % 2 ^ 32) ++ (opening ++ message.1 ++ closing), ?_, ?_⟩
  · exact if_neg (by rw [htext]; omega)
  · rw [length_append, htext]
    rfl

namespace JsonRpcMessageDecoder

def initialized : Notification := ⟨Str.asciiBytes "initialized".toList, by decide⟩

def exit : Notification := ⟨Str.asciiBytes "exit".toList, by decide⟩

theorem pushAll_framed_two : ∃ frames, FramedAs notificationJson [initialized, exit] frames ∧
      ∀ records : List Bytes, records.flatten = frames.flatten →
        (∀ record ∈ records, record.length ≤ noiseRecordPlaintextLen) →
        pushAll notificationJson {} records = ({}, .ok [initialized, exit]) := by
  have hfits : ∀ message ∈ [initialized, exit],
      ∃ text, notificationJson.toVec message = .ok text ∧ text.length ≤ maxNoiseJsonrpcMessageLen := by
    intro message hmem
    refine ⟨_, rfl, ?_⟩
    have hshort : (opening ++ message.1 ++ closing).length ≤ 24 := by
      revert message
      decide
    exact hshort.trans (by rw [maxNoiseJsonrpcMessageLen]; omega)
  obtain ⟨frames, hframes, hrun⟩ := pushAll_framed notificationJson_roundTrips hfits
  exact ⟨frames, hframes, fun records hstream hrecords => (hrun records hstream hrecords).1⟩

/-- A text can be sent in records of one byte. -/
theorem exists_records (bytes : Bytes) :
    ∃ records : List Bytes, records.flatten = bytes ∧ ∀ record ∈ records, record.length ≤ noiseRecordPlaintextLen := by
  refine ⟨bytes.map fun byte => [byte], ?_, fun record hrecord => ?_⟩
  · rw [← flatMap_def, flatMap_singleton']
  · obtain ⟨byte, -, rfl⟩ := mem_map.mp hrecord
    rw [length_singleton, noiseRecordPlaintextLen]
    omega

/-- A notification with a method of so many letters. -/
def ofLength (n : Nat) : Notification :=
  ⟨List.replicate n 120, all_eq_true.mpr fun b hb => by rw [eq_of_mem_replicate hb]; rfl⟩

theorem length_ofLength {n : Nat} (h : 13 ≤ n) : (ofLength (n - 13)).1.length + 13 = n := by
  rw [ofLength, length_replicate]
  omega

/-- With the largest message one byte short of complete, the next record takes the buffer beyond the limit. -/
theorem extend_beyond_limit : ∃ (frames front back : List Bytes) (record : Bytes),
      notificationJson.RoundTrips ∧
      FramedAs notificationJson (replicate 2 (ofLength (maxNoiseJsonrpcMessageLen - 13))) frames ∧
      (front ++ record :: back).flatten = frames.flatten ∧
      (∀ record' ∈ front ++ record :: back, record'.length ≤ noiseRecordPlaintextLen) ∧
      lengthPrefixBytes + maxNoiseJsonrpcMessageLen <
        ((pushAll notificationJson {} front).1.extend record).buffered.length := by
  have hlimit : 13 ≤ maxNoiseJsonrpcMessageLen := by
    unfold maxNoiseJsonrpcMessageLen
    omega
  obtain ⟨first, hfirst, hlen⟩ := frame_notification (length_ofLength hlimit) (Nat.le_refl _)
  have hframes : FramedAs notificationJson (replicate 2 (ofLength (maxNoiseJsonrpcMessageLen - 13))) [first, first] :=
    .cons hfirst (.cons hfirst .nil)
  -- the first frame without its last byte, then as many bytes as a record can have
  let rest : Bytes := first.drop (first.length - 1) ++ first
  obtain ⟨front, hfront, hfrontLen⟩ := exists_records (first.take (first.length - 1))
  obtain ⟨back, hback, hbackLen⟩ := exists_records (rest.drop noiseRecordPlaintextLen)
  have hrest : rest.length = lengthPrefixBytes + maxNoiseJsonrpcMessageLen + 1 := by
    rw [length_append, length_drop]
    omega
  have hrecord : (rest.take noiseRecordPlaintextLen).length = noiseRecordPlaintextLen := by
    rw [length_take, hrest]
    unfold noiseRecordPlaintextLen lengthPrefixBytes maxNoiseJsonrpcMessageLen
    omega
  have hbuffered : (pushAll notificationJson {} front).1.buffered = front.flatten := by
    refine pushAll_part notificationJson_roundTrips hframes ?_ ?_ hfrontLen
    · rw [hfront]
      exact take_prefix _ _
    · rw [hfront, length_take]
      omega
  refine ⟨[first, first], front, back, rest.take noiseRecordPlaintextLen, notificationJson_roundTrips, hframes, ?_, ?_, ?_⟩
  · rw [flatten_append, flatten_cons, hfront, hback, take_append_drop, ← append_assoc]
    simp
  · intro record' hmem
    rcases List.mem_append.mp hmem with hmem | hmem
    · exact hfrontLen record' hmem
    · rcases List.mem_cons.mp hmem with rfl | hmem
      · exact hrecord.le
      · exact hbackLen record' hmem
  · rw [extend, hbuffered, hfront, length_append, length_take, hrecord]
    unfold lengthPrefixBytes noiseRecordPlaintextLen
    omega

end JsonRpcMessageDecoder

end Dcode.NoiseRelay
