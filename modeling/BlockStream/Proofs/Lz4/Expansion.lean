import BlockStream.Proofs.Lz4.Decoding
import BlockStream.Proofs.Lz4.WorstCase

/-!
# How far blocks expand

Every byte that comes out of a block is charged to the bytes of its sequence: a byte of a run adds
at most 255 to a length, and what a token states is far below that.
-/

namespace BlockStream.Lz4

variable {block : ByteArray} {capacity n : Nat}

theorem lt_length_lengthTail (n : Nat) : n < 255 * (lengthTail n).length + fieldMax := by
  rw [length_lengthTail, fieldMax]
  omega

theorem Sequence.size_le (s : Sequence) : s.size ≤ 255 * s.toBytes.length := by
  have hmatch := lt_length_lengthTail (s.length - minMatch)
  rw [Sequence.toBytes, referenceBytes, List.length_append, List.length_append,
    length_literalBytes, length_littleEndian, Sequence.size]
  unfold minMatch fieldMax at *
  omega

theorem totalSize_le_length_flatMap (ss : List Sequence) :
    totalSize ss ≤ 255 * (ss.flatMap Sequence.toBytes).length := by
  induction ss with
  | nil => exact Nat.zero_le _
  | cons s ss ih =>
    have hs := s.size_le
    rw [totalSize, List.flatMap_cons, List.length_append]
    omega

theorem Block.size_le (b : Block) : b.size ≤ 255 * b.toBytes.length := by
  have hss := totalSize_le_length_flatMap b.sequences
  rw [Block.size, Block.toBytes, List.length_append, length_literalBytes]
  omega

/-- **No block expands to more than 255 times its size.** -/
theorem le_of_decompressInto {dst : Buffer capacity}
    (h : (decompressInto block dst).result = .ok n) : n ≤ 255 * block.size := by
  obtain ⟨b, hbytes, hvalid, hroom⟩ := valid_of_decompressInto h
  have hsize := (yields_decompressInto hbytes hvalid dst hroom).1
  obtain rfl := Except.ok.inj (h.symm.trans hsize)
  rw [b.length_decoded, ← length_toList_data, ← hbytes]
  exact b.size_le

end BlockStream.Lz4
