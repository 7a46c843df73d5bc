import BlockStream.Proofs.Lz4.Expansion
import BlockStream.Proofs.Stream.Truncation

/-!
# The sizes of data and of its stream

Each record comes to at least one byte and to no more than a block, and no payload expands by more
than a factor. So the size of a stream limits what can come of it.
-/

namespace BlockStream

variable {stream data : ByteArray} {level : Int32}

/-- Nothing that `C` decompresses is more than `factor` times as long as before. -/
def BlockCompressor.ExpandsBy (C : BlockCompressor) (factor : Nat) : Prop :=
  ∀ (block : ByteArray) {capacity : Nat} (dst : Buffer capacity) n,
    (C.decompress block dst).result = .ok n → n ≤ factor * block.size

theorem expandsBy_lz4 : lz4.ExpandsBy 255 := fun _ _ _ _ => Lz4.le_of_decompressInto

def Record.payloadLength (records : List Record) : Nat :=
  (records.map fun record => record.payload.size).sum

theorem Record.totalLength_eq (records : List Record) :
    totalLength records = headerSize * records.length + payloadLength records := by
  induction records with
  | nil => rfl
  | cons record records ih =>
    rw [totalLength, ih, encodedLength, payloadLength, payloadLength, List.map_cons, List.sum_cons,
      List.length_cons, Nat.mul_succ]
    omega

theorem size_joined (parts : List ByteArray) :
    (joined parts).size = (parts.map ByteArray.size).sum := by
  rw [← length_toList_data, joined, toList_foldl_append, List.length_append, List.length_flatMap]
  exact Nat.zero_add _

namespace Codec

variable {c : Codec} {records : List Record} {parts : List ByteArray} {factor : Nat}

/-! ## Records and their parts -/

theorem size_of_unpacked (h : c.compressor.ExpandsBy factor) {record : Record} {part : ByteArray}
    (hpart : (c.unpacked record).nonemptyBytes = .ok part) :
    1 ≤ part.size ∧ part.size ≤ blockSize ∧ part.size ≤ factor * record.payload.size := by
  obtain ⟨n, hresult, hpos, rfl⟩ := Outcome.nonemptyBytes_eq_ok_iff.1 hpart
  have hn := h record.payload (Buffer.zeros blockSize) n hresult
  have hsize : ((c.unpacked record).buffer.first n).size = min n blockSize := by
    rw [Buffer.first, ByteArray.size_extract, Buffer.size_eq, Nat.sub_zero]
  have hblock : 1 ≤ blockSize := by decide
  rw [hsize]
  omega

theorem UnpacksTo.limits (h : c.compressor.ExpandsBy factor) (hparts : c.UnpacksTo records parts) :
    records.length ≤ (joined parts).size ∧ (joined parts).size ≤ records.length * blockSize ∧
      (joined parts).size ≤ factor * Record.payloadLength records := by
  rw [size_joined]
  induction hparts with
  | nil => simp
  | cons hpart _ ih =>
    obtain ⟨hpos, hblock, hfactor⟩ := size_of_unpacked h hpart
    rw [List.map_cons, List.sum_cons, List.length_cons, Nat.succ_mul, Record.payloadLength,
      List.map_cons, List.sum_cons, Nat.mul_add, ← Record.payloadLength]
    omega

/-! ## Streams -/

/-- A stream that can be decompressed has no violation, and each of its records comes to a part of
the data. -/
theorem exists_parts_of_decompress (h : c.compressor.DecompressesStably)
    (hs : c.decompress stream = .ok data) :
    ∃ max parts, c.maxRecordLength = .ok max ∧
      (Reader.ofStream stream max).walk.violation = none ∧
      c.UnpacksTo (Reader.ofStream stream max).walk.records.toList parts ∧ data = joined parts := by
  cases hmax : c.maxRecordLength with
  | error e =>
    rw [decompress, records, hmax, Except.map, error_bind] at hs
    cases hs
  | ok max =>
    rw [decompress_eq_inTurn h hmax, bind_close_eq_ok_iff] at hs
    obtain ⟨hviolation, hturns⟩ := hs
    obtain ⟨parts, hparts, rfl⟩ := inTurn_eq_ok_iff_parts.1 hturns
    exact ⟨max, parts, rfl, hviolation, hparts, rfl⟩

/-- What the sizes of a stream, of its data and of its payloads have to do with each other. -/
structure Limits (c : Codec) (factor : Nat) (stream data : ByteArray) (count : Nat) : Prop where
  counted : c.recordCount stream = .ok count
  headers_le : headerSize * count ≤ stream.size
  count_le : count ≤ data.size
  size_le : data.size ≤ min (count * blockSize) (factor * (stream.size - headerSize * count))
  empty_iff : data.size = 0 ↔ stream.size = 0

/-- **What can come of a stream.** -/
theorem limits_of_decompress (h : c.compressor.DecompressesStably)
    (hexpands : c.compressor.ExpandsBy factor) (hs : c.decompress stream = .ok data) :
    ∃ count, c.Limits factor stream data count := by
  obtain ⟨max, parts, hmax, hviolation, hparts, rfl⟩ := exists_parts_of_decompress h hs
  have htotal : Record.totalLength (Reader.ofStream stream max).walk.records.toList =
      stream.size := by
    have hframed := Reader.framed_walk (.ofStream stream max) rfl (Nat.zero_le _)
    simpa [Reader.ofStream] using hframed.ended hviolation
  have hcount : c.recordCount stream =
      .ok (Reader.ofStream stream max).walk.records.toList.length := by
    rw [recordCount_eq hmax, hviolation]
    rfl
  generalize (Reader.ofStream stream max).walk.records.toList = records at hparts htotal hcount
  obtain ⟨hone, hblock, hfactor⟩ := UnpacksTo.limits hexpands hparts
  have hpayloads : stream.size - headerSize * records.length = Record.payloadLength records := by
    rw [← htotal, Record.totalLength_eq, Nat.add_sub_cancel_left]
  rw [← hpayloads] at hfactor
  refine ⟨_, hcount, ?_, hone, Nat.le_min.2 ⟨hblock, hfactor⟩, ?_, ?_⟩
  · rw [← htotal, Record.totalLength_eq]
    exact Nat.le_add_right ..
  · intro hzero
    rw [hzero, Nat.le_zero, List.length_eq_zero_iff] at hone
    rw [← htotal, hone]
    rfl
  · intro hzero
    rw [hzero, Nat.zero_sub, Nat.mul_zero] at hfactor
    exact Nat.le_zero.1 hfactor

end Codec

/-! ## Results that are empty -/

theorem size_getD_eq_zero_iff {result : Except StreamError ByteArray} :
    (result.toOption.getD ByteArray.empty).size = 0 ↔
      (∃ bytes, result = .ok bytes ∧ bytes.size = 0) ∨ ∃ e, result = .error e := by
  cases result <;> simp [Except.toOption]

theorem exists_compress_error_iff :
    (∃ e, compress data level = .error e) ↔ Lz4.maxInput < data.size := by
  constructor
  · rintro ⟨e, herror⟩
    refine Nat.lt_of_not_le fun hsize => ?_
    obtain ⟨stream, hstream⟩ := Codec.exists_compress_lz4 .sequential level hsize
    cases herror.symm.trans hstream
  · exact fun hsize => ⟨_, Codec.compress_lz4_of_lt .sequential level hsize⟩

theorem exists_compress_empty_iff :
    (∃ stream, compress data level = .ok stream ∧ stream.size = 0) ↔ data.size = 0 := by
  have hempty {stream : ByteArray} (h : compress data level = .ok stream) :
      data.size = 0 ↔ stream.size = 0 := by
    have hdata := Codec.decompress_of_compress_lz4 h
    obtain ⟨count, hlimits⟩ := Codec.limits_of_decompress stable_lz4.decompress expandsBy_lz4 hdata
    exact hlimits.empty_iff
  constructor
  · rintro ⟨stream, hstream, hzero⟩
    exact (hempty hstream).2 hzero
  · intro hzero
    have hsize : data.size ≤ Lz4.maxInput := hzero ▸ Nat.zero_le _
    obtain ⟨stream, hstream⟩ := Codec.exists_compress_lz4 .sequential level hsize
    exact ⟨stream, hstream, (hempty hstream).1 hzero⟩

/-- **The sizes of LZ4 streams.** Data has at least a byte for each record, no more than a block for
each, and no more than 255 bytes for each byte of a payload. Where the empty array stands in place
of an error, nothing comes of a stream only if it is empty or cannot be decompressed, and of data
only if it is empty or too large. -/
theorem size_limits :
    (∀ stream data, decompress stream = .ok data →
      ∃ count, Codec.lz4.Limits 255 stream data count) ∧
    (∀ stream, (decompressOrEmpty stream).size = 0 ↔
      stream.size = 0 ∨ ∃ e, decompress stream = .error e) ∧
    ∀ data level, (compressOrEmpty data level).size = 0 ↔
      data.size = 0 ∨ Lz4.maxInput < data.size := by
  have hlimits {stream data : ByteArray} (h : decompress stream = .ok data) :
      ∃ count, Codec.lz4.Limits 255 stream data count :=
    Codec.limits_of_decompress stable_lz4.decompress expandsBy_lz4 h
  refine ⟨fun stream data => hlimits, fun stream => ?_, fun data level => ?_⟩
  · rw [decompressOrEmpty, size_getD_eq_zero_iff]
    cases hdata : decompress stream with
    | error e => simp
    | ok data =>
      obtain ⟨count, hlimit⟩ := hlimits hdata
      simp [← hlimit.empty_iff, -ByteArray.size_eq_zero_iff]
  · rw [compressOrEmpty, size_getD_eq_zero_iff, exists_compress_error_iff,
      exists_compress_empty_iff]

theorem size_limits_byte :
    let stream : ByteArray := ⟨#[2, 0, 0, 0, 0x10, 0x62]⟩
    decompress stream = .ok ⟨#[0x62]⟩ ∧ Codec.lz4.Limits 255 stream ⟨#[0x62]⟩ 1 := by
  intro stream
  have hstream : compress ⟨#[0x62]⟩ 1 = .ok stream := by decide +kernel
  have hdata : decompress stream = .ok ⟨#[0x62]⟩ := Codec.decompress_of_compress_lz4 hstream
  have hone : recordCount stream = .ok 1 := by decide +kernel
  obtain ⟨count, hlimits⟩ := size_limits.1 stream _ hdata
  cases hone.symm.trans hlimits.counted
  exact ⟨hdata, hlimits⟩

end BlockStream
