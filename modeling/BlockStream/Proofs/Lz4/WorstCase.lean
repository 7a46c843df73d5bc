import BlockStream.Proofs.Lz4.Encoding

/-!
# The worst case

Sizes are compared after multiplication by 255, since a byte of 255 states 255 bytes: what a
sequence with a match takes is covered by what it stands for, and only the last literals cost
more.
-/

namespace BlockStream

open Lz4

namespace Lz4

variable {block : ByteArray} {capacity : Nat}

/-! ## The bytes of a block -/

theorem length_lengthTail (n : Nat) : (lengthTail n).length = (n + 240) / 255 := by
  by_cases hshort : n < fieldMax
  · rw [lengthTail, if_pos hshort, List.length_nil]
    unfold fieldMax at hshort
    omega
  · rw [lengthTail, if_neg hshort, length_lengthBytes]
    unfold fieldMax at *
    omega

theorem length_lengthTail_le (n : Nat) : 255 * (lengthTail n).length ≤ n + 240 := by
  rw [length_lengthTail]
  exact Nat.mul_div_le ..

theorem lengthTail_of_lt {n : Nat} (h : n < fieldMax) : lengthTail n = [] := if_pos h

theorem lengthTail_of_le {n : Nat} (h : fieldMax ≤ n) : lengthTail n = lengthBytes (n - fieldMax) :=
  if_neg (Nat.not_lt.2 h)

@[simp] theorem length_literalBytes (literals : List UInt8) (field : Nat) :
    (literalBytes literals field).length =
      1 + (lengthTail literals.length).length + literals.length := by
  rw [literalBytes, List.length_append, List.length_cons]
  omega

theorem length_toBytes_sequence {s : Sequence} (h : minMatch ≤ s.length) :
    255 * s.toBytes.length ≤ 256 * s.size := by
  have hlits := length_lengthTail_le s.literals.length
  rw [Sequence.toBytes, referenceBytes, List.length_append, List.length_append,
    length_literalBytes, length_littleEndian, Sequence.size]
  unfold minMatch at *
  -- A short match has no tail, and its four bytes cover its distance; a long one covers both.
  by_cases hshort : s.length - 4 < fieldMax
  · rw [lengthTail_of_lt hshort, List.length_nil]
    omega
  · have hmatch := length_lengthTail_le (s.length - 4)
    unfold fieldMax at hshort
    omega

theorem length_flatMap_toBytes {ss : List Sequence} {pos : Nat}
    (h : EverySequence Sequence.Valid pos ss) :
    255 * (ss.flatMap Sequence.toBytes).length ≤ 256 * totalSize ss := by
  induction ss generalizing pos with
  | nil => exact Nat.le_refl _
  | cons s ss ih =>
    have hs := length_toBytes_sequence h.1.1
    have hss := ih h.2
    rw [List.flatMap_cons, List.length_append, totalSize]
    omega

/-- **A block is longer than what it stands for by no more than one part in 255.** -/
theorem length_toBytes_le {b : Block} (h : b.Valid) :
    255 * b.toBytes.length ≤ 256 * b.size + 495 := by
  have hss := length_flatMap_toBytes h.1
  have hlast := length_lengthTail_le b.last.length
  rw [Block.toBytes, List.length_append, length_literalBytes, Block.size]
  omega

/-- The size of a block that states `n` bytes as literals only. -/
def worstSize (n : Nat) : Nat := 1 + (n + 240) / 255 + n

/-- **No block is longer than one that has literals only.** -/
theorem length_toBytes_le_worstSize {b : Block} (h : b.Valid) :
    b.toBytes.length ≤ worstSize b.size := by
  have hle := length_toBytes_le h
  unfold worstSize
  omega

theorem length_toBytes_literals (last : List UInt8) (spare : Nat) :
    (Block.mk [] last spare).toBytes.length = worstSize last.length := by
  rw [Block.toBytes, List.flatMap_nil, List.nil_append, length_literalBytes, length_lengthTail,
    worstSize]

theorem length_toBytes_pos (b : Block) : 1 ≤ b.toBytes.length := by
  rw [Block.toBytes, List.length_append, length_literalBytes]
  omega

/-! ## The bound -/

theorem bound_of_le {n : Nat} (h : n ≤ maxInput) : bound n = some (n + n / 255 + 16) := if_pos h

theorem toInt_bound32 {n : Nat} (h : n ≤ maxInput) :
    (bound32 (Int32.ofNat n)).toInt = n + n / 255 + 16 := by
  have hn : n < 2 ^ 31 := Nat.lt_of_le_of_lt h (by decide)
  have hneg : ¬ Int32.ofNat n < 0 := by
    rw [Int32.lt_iff_toInt_lt, Int32.toInt_ofNat_of_lt hn, Int32.toInt_zero]
    omega
  rw [bound32, if_neg hneg, Int32.toNatClampNeg_ofNat_of_lt hn, bound_of_le h]
  unfold maxInput at h
  simp only
  rw [Int32.toInt_ofNat_of_lt (by omega)]
  omega

theorem length_toBytes_encoded_le (block : ByteArray) (level : Int32) :
    (encoded block level).toBytes.length ≤ block.size + block.size / 255 + 16 := by
  have h := length_toBytes_le (valid_encoded block level)
  rw [size_encoded] at h
  omega

/-- **A destination as large as the bound has room for the block.** -/
theorem yields_compressInto_of_bound (level : Int32) (h : block.size ≤ maxInput)
    (dst : Buffer capacity) (hroom : block.size + block.size / 255 + 16 ≤ capacity) :
    (compressInto block level dst).Yields (encoded block level).toBytes := by
  have hle := length_toBytes_encoded_le block level
  have hresult : (compressInto block level dst).result = _ := result_compressInto h dst
  rw [if_pos (Nat.le_trans hle hroom)] at hresult
  exact yields_compressInto hresult

end Lz4

end BlockStream
