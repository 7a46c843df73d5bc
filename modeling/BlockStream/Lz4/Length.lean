import BlockStream.Block.Sink
import BlockStream.Lz4.Format

/-!
# Long lengths

A length field that is full is continued by a run of bytes: as many bytes of 255 as the rest of
the length holds, and then one smaller byte.
-/

namespace BlockStream

/-- The run of bytes that states `n`. -/
def Lz4.lengthBytes (n : Nat) : List UInt8 := List.replicate (n / 255) 255 ++ [(n % 255).toUInt8]

def Sink.pushLength {capacity : Nat} (s : Sink capacity) (n : Nat) : Sink capacity :=
  if n < 255 then s.push n.toUInt8 else (s.push 255).pushLength (n - 255)
termination_by n

namespace Lz4

structure Reading where
  value : Nat
  stop : Nat

/-- Read the run of bytes at `pos` and add its number to `total`; `none` if the block ends before
the run does. -/
def readRun (block : ByteArray) (pos total : Nat) : Option Reading :=
  if h : pos < block.size then
    let byte := block[pos]
    if byte = 255 then readRun block (pos + 1) (total + 255)
    else some ⟨total + byte.toNat, pos + 1⟩
  else none
termination_by block.size - pos

/-- Read a length whose field in the token is `field`: a full field goes on at `pos`. -/
@[inline] def readLength (block : ByteArray) (field pos : Nat) : Option Reading :=
  if field = fieldMax then readRun block pos fieldMax else some ⟨field, pos⟩

theorem pos_lt_of_readRun {block : ByteArray} {pos total : Nat} {r : Reading}
    (h : readRun block pos total = some r) : pos < r.stop ∧ r.stop ≤ block.size := by
  fun_induction readRun block pos total with
  | case1 pos total hpos byte full ih => have := ih h; omega
  | case2 pos total hpos byte small =>
    obtain rfl := Option.some.inj h
    exact ⟨Nat.lt_succ_self _, hpos⟩
  | case3 => simp at h

theorem readLength_le {block : ByteArray} {field pos : Nat} {r : Reading}
    (hpos : pos ≤ block.size) (h : readLength block field pos = some r) :
    pos ≤ r.stop ∧ r.stop ≤ block.size := by
  unfold readLength at h
  split at h
  · have := pos_lt_of_readRun h; omega
  · obtain rfl := Option.some.inj h
    exact ⟨Nat.le_refl _, hpos⟩

end Lz4

end BlockStream
