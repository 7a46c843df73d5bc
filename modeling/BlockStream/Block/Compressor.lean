import BlockStream.Block.Outcome

/-! # Block compressors -/

namespace BlockStream

/-- A way to compress single blocks. -/
structure BlockCompressor where
  /-- Worst-case compressed size of `length` bytes, if there is one. -/
  bound : (length : Nat) → Option Nat
  /-- Compress a block at a level. -/
  compress : (block : ByteArray) → (level : Int32) → {capacity : Nat} → Buffer capacity →
    Outcome capacity
  /-- Decompress one block; the destination's size is the most it may decode to. -/
  decompress : (block : ByteArray) → {capacity : Nat} → Buffer capacity → Outcome capacity

/-- What `C` decompresses depends on the block and on the size of the destination only. -/
def BlockCompressor.DecompressesStably (C : BlockCompressor) : Prop :=
  ∀ block {capacity : Nat} (b b' : Buffer capacity),
    (C.decompress block b).Same (C.decompress block b')

/-- The results of `C` depend on the block, the level and the size of the destination only. -/
structure BlockCompressor.Stable (C : BlockCompressor) : Prop where
  compress : ∀ block level {capacity : Nat} (b b' : Buffer capacity),
    (C.compress block level b).Same (C.compress block level b')
  decompress : C.DecompressesStably

end BlockStream
