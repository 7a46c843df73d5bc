import BlockStream.Proofs.Lz4.Unmatched
import BlockStream.Proofs.Stream.Parallel
import BlockStream.Proofs.Stream.Splitting
import Mathlib.Algebra.Order.BigOperators.Group.List

/-!
# The room that is set aside for a stream

The room is the bound of the data as a whole, with a header for each block. But each block is
encoded by itself: a full one without matches takes two bytes more than its share of the bound,
which has sixteen to spare. So the room is enough for eight blocks, and no limit for the stream.
-/

namespace BlockStream

variable {data stream : ByteArray} {level : Int32} {config : Config}

/-! ## The worst case of a stream -/

/-- The size of the stream for `n` bytes if each block is stated as literals only. -/
def Lz4.worstStream (n : Nat) : Nat :=
  n / blockSize * (headerSize + worstSize blockSize) +
    if n % blockSize = 0 then 0 else headerSize + worstSize (n % blockSize)

theorem Lz4.sum_worstSize (data : ByteArray) :
    ((blocks blockSize data).map fun block => headerSize + worstSize block.size).sum =
      worstStream data.size := by
  have hmap : ((blocks blockSize data).map fun block => headerSize + worstSize block.size) =
      ((blocks blockSize data).map ByteArray.size).map fun n => headerSize + worstSize n := by
    rw [List.map_map]
    rfl
  rw [hmap, map_size_blocks (by decide), List.map_append, List.map_replicate, List.sum_append,
    List.sum_replicate, worstStream]
  split <;> simp

theorem Lz4.length_streamBytes (data : ByteArray) (level : Int32) :
    (streamBytes data level).length =
      ((blocks blockSize data).map fun block =>
        headerSize + (encoded block level).toBytes.length).sum := by
  rw [streamBytes, List.length_flatMap, List.map_map]
  congr 1
  exact List.map_congr_left fun block _ => length_recordBytes _

namespace Codec

theorem size_eq_length_streamBytes (h : (lz4 config).compress data level = .ok stream) :
    stream.size = (Lz4.streamBytes data level).length := by
  rw [← toList_of_compress_lz4 h, length_toList_data]

/-- **No stream is larger than the worst case.** -/
theorem size_le_worstStream (h : (lz4 config).compress data level = .ok stream) :
    stream.size ≤ Lz4.worstStream data.size := by
  rw [size_eq_length_streamBytes h, Lz4.length_streamBytes, ← Lz4.sum_worstSize]
  refine List.sum_le_sum fun block _ => Nat.add_le_add_left ?_ _
  rw [← Lz4.size_encoded block level]
  exact Lz4.length_toBytes_le_worstSize (Lz4.valid_encoded block level)

/-- **Data without matches has the largest stream.** -/
theorem size_of_unmatched (hdata : Lz4.Unmatched data)
    (h : (lz4 config).compress data level = .ok stream) :
    stream.size = Lz4.worstStream data.size := by
  rw [size_eq_length_streamBytes h, Lz4.length_streamBytes, ← Lz4.sum_worstSize]
  congr 1
  refine List.map_congr_left fun block hblock => ?_
  obtain ⟨i, -, rfl⟩ := exists_of_mem_blocks (by decide) hblock
  exact congrArg _ (Lz4.length_toBytes_of_unmatched (hdata.extract _ _) level)

end Codec

/-! ## Whoever compresses the blocks -/

/-- A stream in one go, with the workers of a codec, and with the blocks dealt out in any way. -/
theorem exists_stream (h : data.size ≤ Lz4.maxInput) (level : Int32) :
    ∃ stream, compress data level = .ok stream ∧ ∀ config : Config,
      (Codec.lz4 config).compressParallel data level = .ok stream ∧
        ∀ A, (Codec.lz4 config).compressAcross A data level = .ok stream := by
  obtain ⟨stream, hstream⟩ := Codec.exists_compress_lz4 .sequential level h
  refine ⟨stream, hstream, fun config => ?_⟩
  rw [Codec.compressParallel_eq stable_lz4, Codec.compress_lz4_eq]
  refine ⟨hstream, fun A => ?_⟩
  rw [Codec.compressAcross_eq stable_lz4, Codec.compress_lz4_eq]
  exact hstream

/-! ## The worst case against the room -/

theorem worstStream_le (n : Nat) :
    Lz4.worstStream n ≤
      Codec.reserve (n + n / 255 + 16) n + 2 * (blockCount blockSize n - 8) := by
  -- A full block has `255 * 4112 + 16` bytes, and `4112 + 2` more once it is encoded.
  unfold Lz4.worstStream Lz4.worstSize Codec.reserve blockCount headerSize blockSize
  split <;> omega

theorem worstStream_le_reserve_iff (n : Nat) :
    Lz4.worstStream n ≤ Codec.reserve (n + n / 255 + 16) n ↔ n ≤ 8 * blockSize := by
  unfold Lz4.worstStream Lz4.worstSize Codec.reserve blockCount headerSize blockSize
  split <;> omega

/-- **How far the room is enough.** Whoever compresses the blocks, no stream is larger than the room
by more than two bytes for each block after the eighth; so up to eight blocks the room is enough.
Of any larger size there is data whose streams are larger than the room, at every level. -/
theorem reserve_limits {n : Nat} (h : n ≤ Lz4.maxInput) :
    ∃ bound, Lz4.bound n = some bound ∧
      (∀ data, data.size = n → ∀ level, ∃ stream, compress data level = .ok stream ∧
        (∀ config : Config, (Codec.lz4 config).compressParallel data level = .ok stream ∧
          ∀ A, (Codec.lz4 config).compressAcross A data level = .ok stream) ∧
        stream.size ≤ Codec.reserve bound n + 2 * (blockCount blockSize n - 8)) ∧
      (8 * blockSize < n → ∃ data, data.size = n ∧ ∀ level stream,
        compress data level = .ok stream → Codec.reserve bound n < stream.size) := by
  refine ⟨_, Lz4.bound_of_le h, ?_, fun hlarge => ⟨_, Lz4.size_scattered n, ?_⟩⟩
  · rintro data rfl level
    obtain ⟨stream, hstream, hothers⟩ := exists_stream h level
    exact ⟨stream, hstream, hothers,
      Nat.le_trans (Codec.size_le_worstStream hstream) (worstStream_le data.size)⟩
  · intro level stream hstream
    rw [Codec.size_of_unmatched (Lz4.unmatched_scattered n) hstream, Lz4.size_scattered]
    exact Nat.not_le.1 fun hle => Nat.not_lt.2 ((worstStream_le_reserve_iff n).1 hle) hlarge

theorem reserve_limits_nine_blocks :
    8 * blockSize + 1 ≤ Lz4.maxInput ∧ 8 * blockSize < 8 * blockSize + 1 ∧
      (∃ stream, compress (zeros (8 * blockSize + 1)) 1 = .ok stream ∧ stream.size ≤ 8421559) ∧
      ∃ data, data.size = 8 * blockSize + 1 ∧
        ∀ level stream, compress data level = .ok stream → 8421557 < stream.size := by
  have hmax : 8 * blockSize + 1 ≤ Lz4.maxInput := by decide
  have hvalue : Lz4.bound (8 * blockSize + 1) = some 8421521 := Lz4.bound_of_le hmax
  obtain ⟨bound, hbound, hall, hsome⟩ := reserve_limits hmax
  obtain rfl := Option.some.inj (hvalue.symm.trans hbound)
  obtain ⟨stream, hstream, -, hle⟩ := hall (zeros _) (size_zeros _) 1
  exact ⟨hmax, Nat.lt_succ_self _, ⟨stream, hstream, hle⟩, hsome (Nat.lt_succ_self _)⟩

/-- **The room may fall short.** One byte more than eight blocks, without matches, makes a stream
that is one byte larger than the room, in one go or with the blocks dealt out. -/
theorem reserve_lt_scattered :
    let data := Lz4.scattered (8 * blockSize + 1)
    data.size ≤ Lz4.maxInput ∧ Lz4.bound data.size = some 8421521 ∧
      Codec.reserve 8421521 data.size = 8421557 ∧
      ∃ stream, compress data 1 = .ok stream ∧
        (Codec.lz4 (.ofWorkers 4)).compressParallel data 1 = .ok stream ∧
        stream.size = 8421558 := by
  intro data
  have hsize : data.size = 8 * blockSize + 1 := Lz4.size_scattered _
  have hmax : data.size ≤ Lz4.maxInput := by
    rw [hsize]
    decide
  obtain ⟨stream, hstream, hothers⟩ := exists_stream hmax 1
  refine ⟨hmax, ?_, ?_, stream, hstream, (hothers (.ofWorkers 4)).1, ?_⟩
  · rw [Lz4.bound_of_le hmax, hsize]
    rfl
  · rw [hsize]
    rfl
  · rw [Codec.size_of_unmatched (Lz4.unmatched_scattered _) hstream, hsize]
    rfl

end BlockStream
