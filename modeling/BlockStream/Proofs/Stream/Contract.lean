import BlockStream.Proofs.Lz4.RoundTrip
import BlockStream.Proofs.Stream.Parallel

/-!
# What streams need of a compressor

A stream is read back as soon as its blocks are. Beside that, one scratch buffer has to do for all
blocks, and no payload may be longer than a record allows.
-/

namespace BlockStream

/-- Blocks are read back, and `B` is the longest that a payload can be. -/
structure BlockCompressor.ReadsBack (C : BlockCompressor) (B : Nat) : Prop where
  /-- Results do not depend on old bytes of a destination. -/
  stable : C.Stable
  bound_blockSize : C.bound blockSize = some B
  /-- A header can state the length. -/
  lt_word : B < UInt32.size
  /-- No block has a larger bound than the longest. -/
  bound_le : ∀ length b, 1 ≤ length → length ≤ blockSize → C.bound length = some b → b ≤ B
  /-- Nothing is written past the end of a destination. -/
  le_capacity : ∀ (block : ByteArray) (level : Int32) {capacity : Nat} (dst : Buffer capacity) n,
    1 ≤ block.size → block.size ≤ blockSize →
      (C.compress block level dst).result = .ok n → n ≤ capacity
  decompress_compress : ∀ (block : ByteArray) (level : Int32) {capacity : Nat}
    (dst : Buffer capacity) n, 1 ≤ block.size → block.size ≤ blockSize →
      (C.compress block level dst).result = .ok n →
        (C.decompress ((C.compress block level dst).buffer.first n)
          (Buffer.zeros blockSize)).bytes = .ok block

theorem readsBack_lz4 : lz4.ReadsBack (blockSize + blockSize / 255 + 16) := by
  have hmax : blockSize ≤ Lz4.maxInput := by decide
  refine ⟨stable_lz4, Lz4.bound_of_le hmax, by decide, ?_, ?_, ?_⟩
  · intro length b _ hsize hbound
    obtain rfl := Option.some.inj ((Lz4.bound_of_le (Nat.le_trans hsize hmax)).symm.trans hbound)
    have hquotient := Nat.div_le_div_right (c := 255) hsize
    omega
  · intro block level capacity dst n _ _ hresult
    have hy := Lz4.yields_compressInto hresult
    rw [Except.ok.inj (hresult.symm.trans hy.1)]
    exact hy.length_le
  · intro block level capacity dst n _ hsize hresult
    exact (Lz4.yields_decompressInto_encoded (Lz4.toList_first_compressInto hresult)
      (Buffer.zeros blockSize) hsize).bytes_eq

namespace Codec

variable {c : Codec} {B scratch capacity : Nat} {level : Int32}
variable {data stream block payload : ByteArray}

/-! ## One block -/

theorem maxRecordLength_of_readsBack (h : c.compressor.ReadsBack B) :
    c.maxRecordLength = .ok B := by
  have hword : min B (UInt32.size - 1) = B := Nat.min_eq_left (Nat.le_sub_one_of_lt h.lt_word)
  rw [maxRecordLength, boundFor_eq_ok_iff.2 h.bound_blockSize]
  exact congrArg Except.ok hword

theorem payload_of_readsBack (h : c.compressor.ReadsBack B) (hpos : 1 ≤ block.size)
    (hsize : block.size ≤ blockSize) (hroom : capacity ≤ B)
    (hpacks : c.Packs level capacity payload block) : Payload B payload := by
  obtain ⟨index, dst, hpack⟩ := hpacks
  obtain ⟨n, hresult, hn, rfl⟩ := Outcome.nonemptyBytes_eq_ok_iff.1 (pack_eq_ok_iff.1 hpack)
  have hle := h.le_capacity block level dst n hpos hsize hresult
  have hfirst : ((c.compressor.compress block level dst).buffer.first n).size = n :=
    Buffer.size_first _ hle
  exact ⟨by omega, by omega, by have := h.lt_word; omega⟩

theorem unpacks_of_readsBack (h : c.compressor.ReadsBack B) (hpos : 1 ≤ block.size)
    (hsize : block.size ≤ blockSize) (hpacks : c.Packs level capacity payload block) :
    c.Unpacks payload block := by
  obtain ⟨index, dst, hpack⟩ := hpacks
  obtain ⟨n, hresult, -, rfl⟩ := Outcome.nonemptyBytes_eq_ok_iff.1 (pack_eq_ok_iff.1 hpack)
  intro scratch
  have hback := h.decompress_compress block level dst n hpos hsize hresult
  rw [← (h.stable.decompress _ scratch (Buffer.zeros _)).2] at hback
  exact Outcome.nonemptyBytes_of_bytes hback hpos

/-! ## Streams -/

theorem reads_of_mem_blocks (h : c.compressor.ReadsBack B)
    (hscratch : c.boundFor (min data.size blockSize) = .ok scratch)
    (hblock : block ∈ blocks blockSize data) (hpacks : c.Packs level scratch payload block) :
    Payload B payload ∧ c.Unpacks payload block := by
  have hpos := size_pos_of_mem_blocks (by decide) hblock
  have hle := size_le_of_mem_blocks (by decide) hblock
  have hsize : block.size ≤ blockSize := Nat.le_trans hle (Nat.min_le_right ..)
  have hroom : scratch ≤ B :=
    h.bound_le _ _ (Nat.le_trans hpos hle) (Nat.min_le_right ..) (boundFor_eq_ok_iff.1 hscratch)
  exact ⟨payload_of_readsBack h hpos hsize hroom hpacks, unpacks_of_readsBack h hpos hsize hpacks⟩

theorem decompress_of_readsBack (h : c.compressor.ReadsBack B)
    (hstream : c.compress data level = .ok stream) : c.decompress stream = .ok data := by
  apply decompress_of_compress (maxRecordLength_of_readsBack h) _ hstream
  intro scratch hscratch block hblock payload hpacks
  exact reads_of_mem_blocks h hscratch hblock hpacks

/-- **Streams are read back if blocks are.** -/
theorem decompress_of_compress_of_readsBack (h : c.compressor.ReadsBack B)
    (hstream : c.compress data level = .ok stream) :
    c.decompress stream = .ok data ∧ c.decompressParallel stream = .ok data ∧
      ∀ A, c.decompressAcross A stream = .ok data := by
  have hback := decompress_of_readsBack h hstream
  refine ⟨hback, ?_, fun A => ?_⟩
  · rw [decompressParallel_eq h.stable.decompress, hback]
  · rw [decompressAcross_eq h.stable.decompress, hback]

theorem decompress_of_compress_byte :
    let c := lz4 (.ofWorkers 4)
    let stream : ByteArray := ⟨#[2, 0, 0, 0, 0x10, 0x61]⟩
    c.compress ⟨#[0x61]⟩ 1 = .ok stream ∧ c.decompress stream = .ok ⟨#[0x61]⟩ ∧
      c.decompressParallel stream = .ok ⟨#[0x61]⟩ := by
  intro c stream
  have hstream : c.compress ⟨#[0x61]⟩ 1 = .ok stream := by decide +kernel
  obtain ⟨hone, hmany, -⟩ := decompress_of_compress_of_readsBack (c := c) readsBack_lz4 hstream
  exact ⟨hstream, hone, hmany⟩

end Codec

end BlockStream
