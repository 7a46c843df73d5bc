import BlockStream.Lz4.Length
import BlockStream.Lz4.Search

/-!
# Encoding blocks

The encoder writes one sequence for each match that the search finds, with the bytes since the
match before as its literals, and last the bytes after all matches.
-/

namespace BlockStream

namespace Sink

variable {capacity : Nat}

/-- Write a token, and `length` bytes of `block` from `start` on as its literals. The match of the
sequence is `excess` bytes longer than `Lz4.minMatch`. -/
def pushLiterals (s : Sink capacity) (block : ByteArray) (start length excess : Nat) :
    Sink capacity :=
  let s := s.push (Lz4.token length excess)
  let s := if length < Lz4.fieldMax then s else s.pushLength (length - Lz4.fieldMax)
  s.pushSlice block start length

/-- Write the distance of a match, and what its length has beyond the token. -/
def pushReference (s : Sink capacity) (distance excess : Nat) : Sink capacity :=
  let s := (s.push distance.toUInt8).push (distance / 256).toUInt8
  if excess < Lz4.fieldMax then s else s.pushLength (excess - Lz4.fieldMax)

end Sink

namespace Lz4

/-- An encoder between two sequences. -/
structure Encoder (capacity : Nat) where
  /-- The end of the bytes that are encoded. -/
  anchor : Nat
  /-- The output so far. -/
  out : Sink capacity

namespace Encoder

variable {capacity : Nat}

def push (block : ByteArray) (e : Encoder capacity) (m : Match) : Encoder capacity :=
  let excess := m.length - minMatch
  ⟨m.stop, (e.out.pushLiterals block e.anchor (m.start - e.anchor) excess).pushReference
    m.distance excess⟩

/-- Write what is left of the block as the last sequence. -/
def finish (block : ByteArray) (e : Encoder capacity) : Sink capacity :=
  e.out.pushLiterals block e.anchor (block.size - e.anchor) 0

end Encoder

def encode (block : ByteArray) (matched : Array Match) {capacity : Nat} (out : Sink capacity) :
    Sink capacity :=
  (matched.foldl (Encoder.push block) ⟨0, out⟩).finish block

/-- Encode a block at a level into a destination. -/
def compressInto (block : ByteArray) (level : Int32) {capacity : Nat} (dst : Buffer capacity) :
    Outcome capacity :=
  if maxInput < block.size then ⟨.error .inputTooLarge, dst⟩
  else (encode block (findMatches block (.ofLevel level)) (Sink.ofBuffer dst)).finish

def defaultLevel : Int32 := 1

def compressDefault (block : ByteArray) {capacity : Nat} (dst : Buffer capacity) :
    Outcome capacity :=
  compressInto block defaultLevel dst

/-- Encode a block at the default level. -/
def compress (block : ByteArray) : Except BlockError ByteArray :=
  match bound block.size with
  | none => .error .inputTooLarge
  | some n => (compressDefault block (Buffer.zeros n)).bytes

end Lz4

end BlockStream
