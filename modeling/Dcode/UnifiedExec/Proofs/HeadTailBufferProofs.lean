import Dcode.UnifiedExec.HeadTailBuffer

/-!
# The buffer keeps both ends of its stream

What a buffer holds is a function of the stream, `ofStream`: every chunk takes it to that of the longer stream, and so does the
buffer of another stream.
-/

namespace Dcode.UnifiedExec.HeadTailBuffer

open List

variable (maxBytes : Nat)

/-- The first and the last bytes of a stream, as far as the budgets of the head and of the tail go. -/
def ofStream (stream : Bytes) : HeadTailBuffer :=
  { new maxBytes with
    head := stream.take (maxBytes / 2)
    tail := (stream.drop (maxBytes / 2)).rtake (maxBytes - maxBytes / 2)
    omittedBytes := stream.length - maxBytes }

theorem length_rtake {α : Type} (l : List α) (n : Nat) : (l.rtake n).length = min n l.length := by
  rw [rtake, length_drop]
  omega

theorem rtake_append {α : Type} (l m : List α) (n : Nat) : (l ++ m).rtake n = l.rtake (n - m.length) ++ m.rtake n := by
  rw [rtake, rtake, rtake, drop_append, length_append]
  rcases Nat.le_total n m.length with hle | hle
  · rw [drop_eq_nil_of_le (show l.length ≤ _ by omega), drop_eq_nil_of_le (show l.length ≤ l.length - _ by omega)]
    congr 2
    omega
  · congr 2 <;> omega

theorem rtake_rtake {α : Type} (l : List α) {k n : Nat} (h : k ≤ n) : (l.rtake n).rtake k = l.rtake k := by
  rw [rtake, length_rtake, rtake, drop_drop, rtake]
  congr 1
  omega

/-- The tail before the chunk is that of some bytes, of which the buffer has counted what it dropped. -/
theorem pushToTail_eq (self : HeadTailBuffer) (bytes chunk : Bytes) (hpos : 0 < self.tailBudget)
    (htail : self.tail = bytes.rtake self.tailBudget)
    (homitted : self.omittedBytes = bytes.length - self.tailBudget) :
    self.pushToTail chunk =
      { self with
        tail := (bytes ++ chunk).rtake self.tailBudget
        omittedBytes := (bytes ++ chunk).length - self.tailBudget } := by
  have hlength := length_rtake bytes self.tailBudget
  unfold pushToTail
  split
  next hempty =>
    rw [isEmpty_iff.mp hempty, append_nil, ← htail, ← homitted]
  rw [if_neg (by omega)]
  split
  next hle =>
    rw [rtake_append, Nat.sub_eq_zero_of_le hle, rtake_zero, nil_append]
    simp only [length_append, length_drop, homitted, htail, hlength]
    congr 1
    omega
  next hlt =>
    have hkeep : (self.tail ++ chunk).rtake self.tailBudget = (bytes ++ chunk).rtake self.tailBudget := by
      rw [htail, rtake_append, rtake_append, rtake_rtake _ (Nat.sub_le _ _)]
    have htotal : (self.tail ++ chunk).length = min self.tailBudget bytes.length + chunk.length := by
      rw [length_append, htail, hlength]
    unfold trimTailToBudget
    rw [← hkeep, rtake]
    simp only [htotal, @length_append _ bytes]
    split
    · congr 1
      omega
    · rw [Nat.sub_eq_zero_of_le (by omega), drop_zero]
      congr 1
      omega

theorem pushChunk_ofStream (stream chunk : Bytes) :
    (ofStream maxBytes stream).pushChunk chunk = ofStream maxBytes (stream ++ chunk) := by
  unfold pushChunk
  split
  next hempty =>
    rw [isEmpty_iff.mp hempty, append_nil]
  split
  next hzero =>
    subst hzero
    simp [ofStream]
  next hpos =>
    change maxBytes ≠ 0 at hpos
    -- the head takes what it lacks, and the rest goes to the tail
    have hhead : min (maxBytes / 2 - (stream.take (maxBytes / 2)).length) chunk.length =
        min (maxBytes / 2 - stream.length) chunk.length := by
      rw [length_take]
      omega
    have hdrop : chunk.drop (min (maxBytes / 2 - stream.length) chunk.length) = chunk.drop (maxBytes / 2 - stream.length) := by
      rcases Nat.le_total (maxBytes / 2 - stream.length) chunk.length with hle | hle
      · rw [Nat.min_eq_left hle]
      · rw [Nat.min_eq_right hle, drop_length, drop_eq_nil_of_le hle]
    have htake : chunk.take (min (maxBytes / 2 - stream.length) chunk.length) = chunk.take (maxBytes / 2 - stream.length) := by
      rw [← take_take, take_length]
    have hpush := pushToTail_eq
      { ofStream maxBytes stream with head := (stream ++ chunk).take (maxBytes / 2) }
      (stream.drop (maxBytes / 2)) (chunk.drop (maxBytes / 2 - stream.length))
      (show 0 < maxBytes - maxBytes / 2 by omega) rfl
      (show stream.length - maxBytes = _ by simp [ofStream, new]; omega)
    simp only [ofStream, new, hhead, hdrop, htake] at hpush ⊢
    rw [← take_append, hpush, ← drop_append, length_drop]
    congr 1
    omega

theorem pushAll_ofStream (stream : Bytes) (chunks : List Bytes) :
    (ofStream maxBytes stream).pushAll chunks = ofStream maxBytes (stream ++ chunks.flatten) := by
  induction chunks generalizing stream with
  | nil => rw [flatten_nil, append_nil]; rfl
  | cons chunk chunks ih => rw [flatten_cons, ← append_assoc, ← ih, ← pushChunk_ofStream]; rfl

theorem pushAll_new (chunks : List Bytes) : (new maxBytes).pushAll chunks = ofStream maxBytes chunks.flatten := by
  have h := pushAll_ofStream maxBytes [] chunks
  simpa [ofStream, new, rtake] using h

theorem pushBuffer_ofStream (stream other : Bytes) :
    (ofStream maxBytes stream).pushBuffer (ofStream maxBytes other) = ofStream maxBytes (stream ++ other) := by
  have hother := take_append_drop (maxBytes / 2) other
  have hpushed : ((ofStream maxBytes stream).pushChunk (ofStream maxBytes other).head).pushChunk (ofStream maxBytes other).tail =
      ofStream maxBytes (stream ++ other.take (maxBytes / 2) ++
        (other.drop (maxBytes / 2)).rtake (maxBytes - maxBytes / 2)) := by
    rw [pushChunk_ofStream, pushChunk_ofStream]
    rfl
  unfold pushBuffer
  rw [hpushed, show (ofStream maxBytes other).omittedBytes = other.length - maxBytes from rfl]
  rcases Nat.le_total other.length maxBytes with hle | hlt
  · -- nothing of the other stream is omitted
    have hall : (other.drop (maxBytes / 2)).rtake (maxBytes - maxBytes / 2) = other.drop (maxBytes / 2) := by
      rw [rtake, length_drop, Nat.sub_eq_zero_of_le (by omega), drop_zero]
    rw [hall, append_assoc, hother, Nat.sub_eq_zero_of_le hle]
    rfl
  · -- the head is full behind the head of the other stream, and its tail is all of the tail
    have hfront : maxBytes / 2 ≤ (stream ++ other.take (maxBytes / 2)).length := by
      rw [length_append, length_take]
      omega
    have htail : ((other.drop (maxBytes / 2)).rtake (maxBytes - maxBytes / 2)).length = maxBytes - maxBytes / 2 := by
      rw [length_rtake, length_drop]
      omega
    conv_rhs => rw [← hother, ← append_assoc]
    simp only [ofStream, take_append_of_le_length hfront, drop_append_of_le_length hfront, rtake_append _ (rtake _ _),
      rtake_append _ (other.drop _), rtake_rtake _ (Nat.le_refl _), htail, length_drop, length_append, length_take]
    rw [Nat.sub_self, Nat.sub_eq_zero_of_le (show maxBytes - maxBytes / 2 ≤ other.length - maxBytes / 2 by omega)]
    congr 1
    omega

/-- Whatever the chunks, the buffer keeps the first and the last bytes of the stream and counts the others. The buffer of a
stream stands for its chunks. -/
theorem pushAll_exact (chunks : List Bytes) :
    let stream := chunks.flatten
    let buffer := (new maxBytes).pushAll chunks
    buffer.head = stream.take (min stream.length (maxBytes / 2)) ∧
    buffer.tail = stream.rtake (min (stream.length - buffer.head.length) (maxBytes - maxBytes / 2)) ∧
    buffer.omittedBytes = stream.length - buffer.retainedBytes ∧
    (∀ chunks' : List Bytes, chunks'.flatten = stream → (new maxBytes).pushAll chunks' = buffer) ∧
    ∀ earlier : List Bytes, ((new maxBytes).pushAll earlier).pushBuffer buffer = (new maxBytes).pushAll (earlier ++ chunks) := by
  intro stream buffer
  have hbuffer : buffer = ofStream maxBytes stream := pushAll_new maxBytes chunks
  have hhead : buffer.head = stream.take (maxBytes / 2) := by rw [hbuffer]; rfl
  have htail : buffer.tail = (stream.drop (maxBytes / 2)).rtake (maxBytes - maxBytes / 2) := by rw [hbuffer]; rfl
  refine ⟨?_, ?_, ?_, ?_, ?_⟩
  · rw [hhead, Nat.min_comm, ← take_take, take_length]
  · rw [htail, hhead, length_take, rtake, rtake, drop_drop, length_drop]
    rcases Nat.le_total stream.length (maxBytes / 2) with hle | hlt
    · rw [drop_eq_nil_of_le (by omega), drop_eq_nil_of_le (by omega)]
    · congr 1
      omega
  · rw [retainedBytes, hhead, htail, length_take, length_rtake, length_drop, hbuffer]
    show stream.length - maxBytes = _
    omega
  · intro chunks' hchunks
    rw [pushAll_new, hchunks, hbuffer]
  · intro earlier
    rw [hbuffer, pushAll_new, pushAll_new, pushBuffer_ofStream, flatten_append]

end Dcode.UnifiedExec.HeadTailBuffer
