import BlockStream.Proofs.Record.Parsing
import BlockStream.Proofs.Stream.Lz4
import Mathlib.Algebra.Order.Floor.Div

/-!
# The layout of a stream

A stream has one record for each block of the data, and nothing else. The scratch buffer that the
blocks share leaves no trace: a payload is what its block is compressed to on its own.
-/

namespace BlockStream

variable {data stream block payload : ByteArray} {level : Int32} {config : Config} {max : Nat}

/-! ## Blocks -/

theorem blockAt_eq_extract_min (size : Nat) (data : ByteArray) (i : Nat) :
    blockAt size data i = data.extract (i * size) (min ((i + 1) * size) data.size) := by
  apply ext_of_toList
  rw [blockAt, toList_extract, toList_extract, List.take_eq_take_iff, length_bytesFrom]
  omega

theorem getElem?_blocks {size i : Nat} (h : (blocks size data)[i]? = some block) :
    block = blockAt size data i := by
  obtain ⟨hi, rfl⟩ := List.getElem?_eq_some_iff.1 h
  simp [blocks]

/-! ## Records of a written stream -/

namespace Codec

variable {c : Codec} {B capacity : Nat}

theorem recordCount_eq (hmax : c.maxRecordLength = .ok max) (stream : ByteArray) :
    c.recordCount stream =
      match (Reader.ofStream stream max).walk.violation with
      | some e => .error (.format e)
      | none => .ok (Reader.ofStream stream max).walk.records.size := by
  unfold recordCount records
  rw [hmax]
  rfl

/-- **A written stream is walked to its end, and its records are those of the blocks.** -/
theorem walk_of_compress (h : c.compressor.ReadsBack B)
    (hstream : c.compress data level = .ok stream) :
    (Reader.ofStream stream B).walk.violation = none ∧
      ∃ scratch, List.Forall₂ (fun record block => c.Packs level scratch record.payload block)
        (Reader.ofStream stream B).walk.records.toList (blocks blockSize data) := by
  obtain ⟨scratch, hscratch, payloads, hpacks, hbytes⟩ := payloads_of_compress hstream
  have hpayloads : ∀ payload ∈ payloads, Payload B payload := by
    intro payload hpayload
    obtain ⟨i, hi, rfl⟩ := List.mem_iff_getElem.1 hpayload
    rw [List.forall₂_iff_get] at hpacks
    have hblock := List.getElem_mem (hpacks.1 ▸ hi : i < (blocks blockSize data).length)
    exact (reads_of_mem_blocks h hscratch hblock (hpacks.2 i hi _)).1
  have hwalk := Reader.walk_of_payloads (r := .ofStream stream B) rfl hpayloads
    (segment_zero_iff.2 hbytes.symm)
  refine ⟨hwalk.1, scratch, ?_⟩
  rw [← hwalk.2, List.forall₂_map_left_iff] at hpacks
  exact hpacks

theorem toList_of_packs_lz4 (h : (lz4 config).Packs level capacity payload block) :
    payload.data.toList = (Lz4.encoded block level).toBytes := by
  obtain ⟨index, scratch, hpack⟩ := h
  obtain ⟨n, hresult, -, rfl⟩ := Outcome.nonemptyBytes_eq_ok_iff.1 (pack_eq_ok_iff.1 hpack)
  exact Lz4.toList_first_compressInto hresult

end Codec

/-! ## Payloads by themselves -/

/-- The block on its own is compressed to the payload, in any destination that is as large as the
bound, and the payload on its own is decompressed into the block. -/
structure Lz4.Carries (level : Int32) (payload block : ByteArray) : Prop where
  compress : ∃ b, bound block.size = some b ∧
    ∀ dst : Buffer b, (compressInto block level dst).bytes = .ok payload
  decompress : ∀ out : Buffer blockSize, (decompressInto payload out).bytes = .ok block

/-- **What became of a block in a scratch buffer is what becomes of it on its own.** -/
theorem Lz4.carries_of_packs {capacity : Nat} (hsize : block.size ≤ blockSize)
    (h : (Codec.lz4 config).Packs level capacity payload block) : Carries level payload block := by
  have hbytes := Codec.toList_of_packs_lz4 h
  have hmax : block.size ≤ maxInput := Nat.le_trans hsize (by decide)
  refine ⟨⟨_, bound_of_le hmax, fun dst => ?_⟩, fun out => ?_⟩
  · have hy := yields_compressInto_of_bound level hmax dst (Nat.le_refl _)
    rw [← hbytes] at hy
    exact hy.bytes_eq
  · exact (yields_decompressInto_encoded hbytes out hsize).bytes_eq

theorem Lz4.carries_of_forall₂ {records : List Record} {record : Record} {scratch i : Nat}
    (hpacks : List.Forall₂ (fun record block =>
      (Codec.lz4 config).Packs level scratch record.payload block) records (blocks blockSize data))
    (hrecord : records[i]? = some record) :
    Carries level record.payload
      (data.extract (i * blockSize) (min ((i + 1) * blockSize) data.size)) := by
  obtain ⟨hi, rfl⟩ := List.getElem?_eq_some_iff.1 hrecord
  rw [List.forall₂_iff_get] at hpacks
  have hblock := List.getElem?_eq_getElem (hpacks.1 ▸ hi : i < (blocks blockSize data).length)
  have hsize := size_le_of_mem_blocks (by decide) (List.mem_of_getElem? hblock)
  have hcarries := carries_of_packs (Nat.le_trans hsize (Nat.min_le_right ..)) (hpacks.2 i hi _)
  rw [← blockAt_eq_extract_min, ← getElem?_blocks hblock]
  exact hcarries

/-- **The layout of a stream.** There is a record for each block of the data, the records take the
whole stream, and each of them carries its block. -/
theorem layout_of_compress (h : data.size ≤ Lz4.maxInput) (level : Int32) :
    ∃ stream max records, compress data level = .ok stream ∧
      Lz4.bound blockSize = some max ∧ Codec.lz4.maxRecordLength = .ok max ∧
      (Reader.ofStream stream max).Finds records none ∧
      records.length = data.size ⌈/⌉ blockSize ∧
      recordCount stream = .ok (data.size ⌈/⌉ blockSize) ∧
      Record.totalLength records = stream.size ∧
      ∀ i record, records[i]? = some record →
        record.index = i ∧ record.offset = Record.totalLength (records.take i) ∧
        (word32 stream record.offset).toNat = record.payload.size ∧
        1 ≤ record.payload.size ∧ record.payload.size ≤ max ∧
        Lz4.Carries level record.payload
          (data.extract (i * blockSize) (min ((i + 1) * blockSize) data.size)) := by
  obtain ⟨stream, hstream⟩ := Codec.exists_compress_lz4 .sequential level h
  obtain ⟨hviolation, scratch, hpacks⟩ := Codec.walk_of_compress readsBack_lz4 hstream
  have hmax := Codec.maxRecordLength_lz4 .sequential
  have hframed := Reader.framed_walk (.ofStream stream (blockSize + blockSize / 255 + 16)) rfl
    (Nat.zero_le _)
  have hlength := hpacks.length_eq.trans (length_blocks ..)
  refine ⟨stream, _, _, hstream, Lz4.bound_of_le (by decide), hmax,
    hviolation ▸ Reader.finds_walk _, hlength, ?_, ?_, ?_⟩
  · rw [recordCount, Codec.recordCount_eq hmax, hviolation]
    exact congrArg Except.ok hlength
  · simpa [Reader.ofStream] using hframed.ended hviolation
  · intro i record hrecord
    obtain ⟨hindex, hoffset, hpayload⟩ := hframed.record i record hrecord
    exact ⟨by simpa [Reader.ofStream] using hindex, by simpa [Reader.ofStream] using hoffset,
      hframed.header hrecord, hpayload.pos, hpayload.le_max, Lz4.carries_of_forall₂ hpacks hrecord⟩

theorem layout_of_compress_zeros :
    (zeros (blockSize + 1)).size ≤ Lz4.maxInput ∧
      ∃ stream records, compress (zeros (blockSize + 1)) 1 = .ok stream ∧
        (Reader.ofStream stream 1052704).Finds records none ∧ records.length = 2 ∧
        recordCount stream = .ok 2 ∧ Record.totalLength records = stream.size := by
  have hsize : (zeros (blockSize + 1)).size ≤ Lz4.maxInput := by
    rw [size_zeros]
    decide
  obtain ⟨stream, max, records, hstream, hbound, -, hfinds, hlength, hcount, htotal, -⟩ :=
    layout_of_compress hsize 1
  have hceil : (zeros (blockSize + 1)).size ⌈/⌉ blockSize = 2 := by
    rw [size_zeros]
    rfl
  rw [hceil] at hlength hcount
  cases hbound.symm.trans (show _ = some 1052704 from Lz4.bound_of_le (by decide))
  exact ⟨hsize, stream, records, hstream, hfinds, hlength, hcount, htotal⟩

end BlockStream
