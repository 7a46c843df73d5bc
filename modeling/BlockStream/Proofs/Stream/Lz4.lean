import BlockStream.Proofs.Stream.Contract

/-! # LZ4 streams there and back -/

namespace BlockStream

variable {data block payload : ByteArray} {level : Int32} {config : Config} {capacity : Nat}

namespace Codec

/-! ## Sizes -/

theorem boundFor_lz4 (config : Config) {n : Nat} (h : n ≤ Lz4.maxInput) :
    (lz4 config).boundFor n = .ok (n + n / 255 + 16) :=
  boundFor_eq_ok_iff.2 (Lz4.bound_of_le h)

theorem boundFor_lz4_of_lt (config : Config) {n : Nat} (h : Lz4.maxInput < n) :
    (lz4 config).boundFor n = .error (.bound n) :=
  boundFor_eq_error_iff.2 ⟨if_neg (Nat.not_le.2 h), rfl⟩

theorem maxRecordLength_lz4 (config : Config) :
    (lz4 config).maxRecordLength = .ok (blockSize + blockSize / 255 + 16) :=
  maxRecordLength_of_readsBack (c := lz4 config) readsBack_lz4

/-! ## Payloads -/

theorem pack_lz4 (config : Config) (level : Int32) (hsize : block.size ≤ Lz4.maxInput)
    (scratch : Buffer capacity) (hroom : block.size + block.size / 255 + 16 ≤ capacity)
    (index : Nat) :
    ∃ payload, ((lz4 config).pack level scratch index block).1 = .ok payload ∧
      payload.data.toList = (Lz4.encoded block level).toBytes := by
  have hy := Lz4.yields_compressInto_of_bound level hsize scratch hroom
  refine ⟨_, pack_eq_ok_iff.2 (Outcome.nonemptyBytes_eq_ok_iff.2 ⟨_, hy.1, ?_, rfl⟩),
    hy.toList_first⟩
  have := Lz4.length_toBytes_pos (Lz4.encoded block level)
  omega

theorem payload_lz4 (hbytes : payload.data.toList = (Lz4.encoded block level).toBytes)
    (hsize : block.size ≤ blockSize) :
    Payload (blockSize + blockSize / 255 + 16) payload := by
  have hlength : payload.size = (Lz4.encoded block level).toBytes.length := by
    rw [← hbytes, length_toList_data]
  have hpos := Lz4.length_toBytes_pos (Lz4.encoded block level)
  have hle := Lz4.length_toBytes_encoded_le block level
  have hquotient := Nat.div_le_div_right (c := 255) hsize
  refine ⟨by omega, by omega, ?_⟩
  unfold blockSize at *
  unfold UInt32.size
  omega

/-! ## Streams -/

theorem exists_compress_lz4 (config : Config) (level : Int32) (h : data.size ≤ Lz4.maxInput) :
    ∃ stream, (lz4 config).compress data level = .ok stream := by
  have hmin : min data.size blockSize ≤ Lz4.maxInput := Nat.le_trans (Nat.min_le_left ..) h
  rw [compress_eq ⟨⟨_, boundFor_lz4 config h⟩, boundFor_lz4 config hmin⟩]
  apply exists_packFrom
  intro block hblock index scratch
  have hsize := size_le_of_mem_blocks (by decide) hblock
  have hquotient := Nat.div_le_div_right (c := 255) hsize
  obtain ⟨payload, hpack, -⟩ :=
    pack_lz4 config level (Nat.le_trans hsize hmin) scratch (by omega) index
  exact ⟨payload, hpack⟩

theorem compress_lz4_of_lt (config : Config) (level : Int32) (h : Lz4.maxInput < data.size) :
    (lz4 config).compress data level = .error (.bound data.size) := by
  rw [compress, boundFor_lz4_of_lt config h, error_bind]

theorem decompress_of_compress_lz4 {stream : ByteArray}
    (h : (lz4 config).compress data level = .ok stream) :
    (lz4 config).decompress stream = .ok data :=
  decompress_of_readsBack (c := lz4 config) readsBack_lz4 h

end Codec

/-- **The bound is sound.** It is the same on both kinds of lengths. No block that fits it is
refused, and no payload is empty or longer than a record allows. -/
theorem compressInto_le_bound (h : block.size ≤ Lz4.maxInput) (level : Int32) :
    ∃ b, Lz4.bound block.size = some b ∧ (Lz4.bound32 (Int32.ofNat block.size)).toInt = b ∧
      (∀ {capacity : Nat} (dst : Buffer capacity), b ≤ capacity →
        ∃ n, (Lz4.compressInto block level dst).result = .ok n ∧ 1 ≤ n ∧ n ≤ b) ∧
      (block.size ≤ blockSize → ∀ config : Config,
        ∃ max, (Codec.lz4 config).maxRecordLength = .ok max ∧
          ∀ {capacity : Nat} (scratch : Buffer capacity) (index : Nat), b ≤ capacity →
            ∃ payload, ((Codec.lz4 config).pack level scratch index block).1 = .ok payload ∧
              1 ≤ payload.size ∧ payload.size ≤ max) := by
  refine ⟨_, Lz4.bound_of_le h, by rw [Lz4.toInt_bound32 h]; simp, ?_, ?_⟩
  · intro capacity dst hroom
    exact ⟨_, (Lz4.yields_compressInto_of_bound level h dst hroom).1, Lz4.length_toBytes_pos _,
      Lz4.length_toBytes_encoded_le block level⟩
  · intro hsize config
    refine ⟨_, Codec.maxRecordLength_lz4 config, ?_⟩
    intro capacity scratch index hroom
    obtain ⟨payload, hpack, hbytes⟩ := Codec.pack_lz4 config level h scratch hroom index
    have hpayload := Codec.payload_lz4 hbytes hsize
    exact ⟨payload, hpack, hpayload.pos, hpayload.le_max⟩

theorem compressInto_le_bound_three :
    (ByteArray.mk #[1, 2, 3]).size ≤ Lz4.maxInput ∧
      (∃ n, (Lz4.compressInto ⟨#[1, 2, 3]⟩ 1 (Buffer.zeros 19)).result = .ok n ∧
        1 ≤ n ∧ n ≤ 19) ∧
      ∃ payload, (Codec.lz4.pack 1 (Buffer.zeros 19) 0 ⟨#[1, 2, 3]⟩).1 = .ok payload ∧
        1 ≤ payload.size ∧ payload.size ≤ 1052704 := by
  have hsize : (ByteArray.mk #[1, 2, 3]).size ≤ Lz4.maxInput := by decide
  obtain ⟨b, hb, -, hrun, hpack⟩ := compressInto_le_bound hsize 1
  cases hb.symm.trans (show _ = some 19 by rfl)
  obtain ⟨max, hmax, hpayload⟩ := hpack (by decide) .sequential
  cases hmax.symm.trans (Codec.maxRecordLength_lz4 .sequential)
  exact ⟨hsize, hrun (Buffer.zeros 19) (Nat.le_refl _),
    hpayload (Buffer.zeros 19) 0 (Nat.le_refl _)⟩

/-- **Compressed data is decompressed into itself.** Only data without a bound is refused. -/
theorem decompress_compress (data : ByteArray) (level : Int32) :
    (data.size ≤ Lz4.maxInput → ∃ stream, compress data level = .ok stream ∧
      decompress stream = .ok data ∧
      decompressOrEmpty (compressOrEmpty data level) = data) ∧
    (Lz4.maxInput < data.size → compress data level = .error (.bound data.size)) := by
  constructor
  · intro h
    obtain ⟨stream, hstream⟩ := Codec.exists_compress_lz4 .sequential level h
    have hdata := Codec.decompress_of_compress_lz4 hstream
    refine ⟨stream, hstream, hdata, ?_⟩
    rw [decompressOrEmpty, compressOrEmpty, compress, hstream]
    show (decompress stream).toOption.getD _ = data
    rw [decompress, hdata]
    rfl
  · intro h
    rw [compress, Codec.compress, Codec.boundFor_lz4_of_lt _ h]
    rfl

end BlockStream
