import Dcode.Lib.Str

/-!
# The capped output buffer

`HeadTailBuffer` of `codex-rs/core/src/unified_exec/head_tail_buffer.rs`, which keeps the beginning and the end of a stream of
bytes. The counts of bytes are below what a `usize` holds, so that no sum saturates.
-/

namespace Dcode.UnifiedExec

structure HeadTailBuffer where
  maxBytes : Nat
  headBudget : Nat
  tailBudget : Nat
  head : Bytes := []
  tail : Bytes := []
  omittedBytes : Nat := 0
deriving DecidableEq

namespace HeadTailBuffer

def new (maxBytes : Nat) : HeadTailBuffer where
  maxBytes := maxBytes
  headBudget := maxBytes / 2
  tailBudget := maxBytes - maxBytes / 2

variable (self : HeadTailBuffer)

def retainedBytes : Nat := self.head.length + self.tail.length

def trimTailToBudget : HeadTailBuffer :=
  let excess := self.tail.length - self.tailBudget
  if excess > 0 then { self with tail := self.tail.drop excess, omittedBytes := self.omittedBytes + excess } else self

def pushToTail (chunk : Bytes) : HeadTailBuffer :=
  if chunk.isEmpty then self
  else if self.tailBudget = 0 then { self with omittedBytes := self.omittedBytes + chunk.length }
  else if chunk.length ≥ self.tailBudget then
    let kept := chunk.drop (chunk.length - self.tailBudget)
    let dropped := chunk.length - kept.length
    { self with tail := kept, omittedBytes := self.omittedBytes + self.tail.length + dropped }
  else trimTailToBudget { self with tail := self.tail ++ chunk }

def pushChunk (chunk : Bytes) : HeadTailBuffer :=
  if chunk.isEmpty then self
  else if self.maxBytes = 0 then { self with omittedBytes := self.omittedBytes + chunk.length }
  else
    let remainingHead := self.headBudget - self.head.length
    let headLen := min remainingHead chunk.length
    pushToTail { self with head := self.head ++ chunk.take headLen } (chunk.drop headLen)

def pushBuffer (self buffer : HeadTailBuffer) : HeadTailBuffer :=
  let pushed := (self.pushChunk buffer.head).pushChunk buffer.tail
  { pushed with omittedBytes := pushed.omittedBytes + buffer.omittedBytes }

def pushAll (chunks : List Bytes) : HeadTailBuffer := chunks.foldl pushChunk self

end HeadTailBuffer

end Dcode.UnifiedExec
