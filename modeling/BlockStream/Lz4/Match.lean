import BlockStream.Bytes.Checked
import BlockStream.Lz4.Format

/-!
# Matches

A match is a run of bytes of a block that also stands at some distance before. It is extended
backwards byte by byte, and forwards eight bytes at a time.
-/

namespace BlockStream

namespace Lz4

/-- A run of `length` bytes at `start` that also stands `distance` bytes before. -/
structure Match where
  start : Nat
  length : Nat
  distance : Nat
  deriving DecidableEq, Repr

@[inline] def Match.stop (m : Match) : Nat := m.start + m.length

/-! ## Forwards -/

/-- The number of zero bytes before the first one that is not, among the `bytes` lowest bytes of
a word; low bytes come first. -/
def leadingZeroBytes : (bytes : Nat) → UInt64 → Nat
  | 0, _ => 0
  | bytes + 1, word => if word % 256 = 0 then leadingZeroBytes bytes (word / 256) + 1 else 0

/-- The first position from `pos` on, and at most `limit`, whose byte differs from the one at the
same place after `candidate`. -/
def commonEndBytewise (block : ByteArray) (limit pos candidate : Nat) : Nat :=
  if pos < limit then
    if byteAt block pos = byteAt block candidate then
      commonEndBytewise block limit (pos + 1) (candidate + 1)
    else pos
  else pos
termination_by limit - pos

/-- The same, eight bytes at a time as long as they lie before `limit`. Positions are numbers
without a limit; `Checked.count` below is this on the words of a machine. -/
def commonEnd (block : ByteArray) (limit pos candidate : Nat) : Nat :=
  if pos + 8 ≤ limit then
    let difference := word64 block pos ^^^ word64 block candidate
    if difference = 0 then commonEnd block limit (pos + 8) (candidate + 8)
    else pos + leadingZeroBytes 8 difference
  else commonEndBytewise block limit pos candidate
termination_by limit - pos

/-- How many bytes from `pos` on agree with those from `candidate` on, up to position `limit`. -/
def commonLength (block : ByteArray) (limit pos candidate : Nat) : Nat :=
  commonEnd block limit pos candidate - pos

theorem le_commonEndBytewise (block : ByteArray) (limit pos candidate : Nat) :
    pos ≤ commonEndBytewise block limit pos candidate := by
  fun_induction commonEndBytewise block limit pos candidate <;> omega

theorem le_commonEnd (block : ByteArray) (limit pos candidate : Nat) :
    pos ≤ commonEnd block limit pos candidate := by
  fun_induction commonEnd block limit pos candidate with
  | case1 => omega
  | case2 => omega
  | case3 => exact le_commonEndBytewise ..

/-! ## Backwards -/

/-- The first position down to which the bytes before `pos` agree with those before `candidate`,
without going below `anchor` or before the block. -/
def commonStart (block : ByteArray) (anchor : Nat) : (pos candidate : Nat) → Nat
  | pos + 1, candidate + 1 =>
    if anchor ≤ pos ∧ byteAt block pos = byteAt block candidate then
      commonStart block anchor pos candidate
    else pos + 1
  | pos, _ => pos

theorem commonStart_le (block : ByteArray) (anchor pos candidate : Nat) :
    commonStart block anchor pos candidate ≤ pos := by
  fun_induction commonStart block anchor pos candidate <;> omega

end Lz4

/-! ## Forwards, on words -/

namespace Checked

def doubleWord (words : Words) (block : ByteArray) (pos : Nat) : Except Fault UInt64 := do
  let stop ← add words pos 8
  let bytes ← slice block pos stop
  return word64 bytes 0

/-- The number of bytes from `start` on that agree, of which those before `pos` are known to. -/
def countBytes (words : Words) (block : ByteArray) (limit start : Nat) :
    (rounds pos candidate : Nat) → Except Fault Nat
  | 0, _, _ => throw .unfinished
  | rounds + 1, pos, candidate =>
    if pos < limit then do
      let value ← byte block pos
      let value' ← byte block candidate
      if value = value' then
        let pos ← add words pos 1
        let candidate ← add words candidate 1
        countBytes words block limit start rounds pos candidate
      else sub pos start
    else sub pos start

/-- The same, eight bytes at a time as long as they lie before `limit`. -/
def countFrom (words : Words) (block : ByteArray) (limit start : Nat) :
    (rounds pos candidate : Nat) → Except Fault Nat
  | 0, _, _ => throw .unfinished
  | rounds + 1, pos, candidate => do
    let ahead ← add words pos 8
    if ahead ≤ limit then
      let word ← doubleWord words block pos
      let word' ← doubleWord words block candidate
      let difference := word ^^^ word'
      if difference = 0 then
        let candidate ← add words candidate 8
        countFrom words block limit start rounds ahead candidate
      else
        let known ← sub pos start
        add words known (Lz4.leadingZeroBytes 8 difference)
    else countBytes words block limit start (limit + 1) pos candidate

def count (words : Words) (block : ByteArray) (limit pos candidate : Nat) : Except Fault Nat :=
  countFrom words block limit pos (limit + 1) pos candidate

end Checked

end BlockStream
