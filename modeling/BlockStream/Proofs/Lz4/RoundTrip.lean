import BlockStream.Proofs.Lz4.Decoding
import BlockStream.Proofs.Lz4.WorstCase

/-! # Blocks there and back -/

namespace BlockStream

open Lz4

namespace Lz4

variable {block packed : ByteArray} {capacity : Nat}

theorem yields_decompressInto_encoded {level : Int32}
    (hpacked : packed.data.toList = (encoded block level).toBytes) (out : Buffer capacity)
    (hroom : block.size ≤ capacity) : (decompressInto packed out).Yields block.data.toList := by
  rw [← decoded_encoded block level]
  apply yields_decompressInto hpacked.symm (valid_encoded block level)
  rwa [size_encoded]

theorem toList_first_compressInto {level : Int32} {n : Nat} {dst : Buffer capacity}
    (h : (compressInto block level dst).result = .ok n) :
    ((compressInto block level dst).buffer.first n).data.toList =
      (encoded block level).toBytes := by
  have hy := yields_compressInto h
  obtain rfl := Except.ok.inj (h.symm.trans hy.1)
  exact hy.toList_first

theorem compress_eq_ok (h : block.size ≤ maxInput) :
    ∃ packed, compress block = .ok packed ∧
      packed.data.toList = (encoded block defaultLevel).toBytes := by
  have hy := yields_compressInto_of_bound defaultLevel h (Buffer.zeros _) (Nat.le_refl _)
  refine ⟨_, ?_, hy.toList_first⟩
  rw [compress, bound_of_le h]
  show Except.map _ (compressInto block defaultLevel _).result = _
  rw [hy.1]
  rfl

theorem decompress_of_encoded {level : Int32}
    (hpacked : packed.data.toList = (encoded block level).toBytes)
    (hroom : block.size ≤ capacity) : decompress packed capacity = .ok block :=
  (yields_decompressInto_encoded hpacked (Buffer.zeros capacity) hroom).bytes_eq

/-- **Decompression undoes compression.** -/
theorem decompressInto_compressInto (h : block.size ≤ maxInput) (level : Int32) :
    (∀ {capacity n : Nat} (dst : Buffer capacity), (compressInto block level dst).result = .ok n →
      ∀ {room : Nat} (out : Buffer room), block.size ≤ room →
        let packed := (compressInto block level dst).buffer.first n
        (decompressInto packed out).result = .ok block.size ∧
          (decompressInto packed out).buffer.first block.size = block) ∧
    ∃ packed, compress block = .ok packed ∧
      ∀ room, block.size ≤ room → decompress packed room = .ok block := by
  constructor
  · intro capacity n dst hn room out hroom
    have hy := yields_decompressInto_encoded (toList_first_compressInto hn) out hroom
    exact ⟨hy.1, ext_of_toList hy.toList_first⟩
  · obtain ⟨packed, hpacked, hbytes⟩ := compress_eq_ok h
    exact ⟨packed, hpacked, fun room hroom => decompress_of_encoded hbytes hroom⟩

theorem decompressInto_compressInto_zeros :
    (compressInto (zeros 13) 1 (Buffer.zeros 10)).result = .ok 10 ∧
      (decompressInto ((compressInto (zeros 13) 1 (Buffer.zeros 10)).buffer.first 10)
        (Buffer.zeros 13)).buffer.first 13 = zeros 13 := by
  have hsize : (zeros 13).size = 13 := size_zeros 13
  have hrun : (compressInto (zeros 13) 1 (Buffer.zeros 10)).result = .ok 10 := by decide +kernel
  have hle : (zeros 13).size ≤ maxInput := by rw [hsize]; decide
  have hback := (decompressInto_compressInto hle 1).1 _ hrun (Buffer.zeros 13) (Nat.le_of_eq hsize)
  rw [hsize] at hback
  exact ⟨hrun, hback.2⟩

end Lz4

end BlockStream
