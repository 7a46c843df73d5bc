import BlockStream.Proofs.Stream.Layout

/-!
# Does a codec accept its own records?

The writer of a codec makes room for payloads by the bound for the longest block of the data; the
reader allows payloads up to the bound for a block of full size. That one may be smaller, and
there may be none.
-/

namespace BlockStream

variable {data stream block payload : ByteArray} {level : Int32}

namespace BlockCompressor

/-- Nothing is written past the end of a destination. -/
def WithinRoom (C : BlockCompressor) : Prop :=
  ∀ (block : ByteArray) (level : Int32) {capacity : Nat} (dst : Buffer capacity) n,
    (C.compress block level dst).result = .ok n → n ≤ capacity

theorem withinRoom_lz4 : lz4.WithinRoom := by
  intro block level capacity dst n hresult
  have hyields := Lz4.yields_compressInto hresult
  rw [Except.ok.inj (hresult.symm.trans hyields.1)]
  exact hyields.length_le

/-- The compressor, with bounds only up to a limit. -/
def limited (C : BlockCompressor) (limit : Nat) : BlockCompressor :=
  { C with bound := fun length => if length ≤ limit then C.bound length else none }

/-- A compressor that takes all the room that it gets, whatever stands there. -/
def filler (bound : Nat → Option Nat) : BlockCompressor where
  bound := bound
  compress _ _ capacity dst := ⟨.ok capacity, dst⟩
  decompress _ _ dst := ⟨.error .malformedInput, dst⟩

theorem withinRoom_filler (bound : Nat → Option Nat) : (filler bound).WithinRoom := by
  intro block level capacity dst n hresult
  exact Nat.le_of_eq (Except.ok.inj hresult).symm

end BlockCompressor

open BlockCompressor (filler withinRoom_filler)

/-- No block has a larger bound than one of full size, and a header can state it. A bound of zero
does not count, because nothing can be written under it; but data without any bytes needs no room,
and its bound has to come with one for a block of full size. -/
structure LargestAtBlockSize (bound : Nat → Option Nat) : Prop where
  empty : ∀ b, bound 0 = some b → ∃ B, bound blockSize = some B
  le : ∀ length b, 1 ≤ length → length ≤ blockSize → bound length = some b → 1 ≤ b →
    ∃ B, bound blockSize = some B ∧ b ≤ min B (UInt32.size - 1)

namespace Codec

variable {c : Codec} {max n : Nat}

/-- The codec accepts the framing of what it writes. There is a record for each block, and each
length prefix is in the range that the codec allows. -/
def ReadsFraming (c : Codec) : Prop :=
  ∀ data level stream, c.compress data level = .ok stream →
    c.recordCount stream = .ok (data.size ⌈/⌉ blockSize) ∧
      ∃ max records, c.maxRecordLength = .ok max ∧
        (Reader.ofStream stream max).Finds records none ∧
        ∀ record ∈ records, 1 ≤ (word32 stream record.offset).toNat ∧
          (word32 stream record.offset).toNat ≤ max

/-! ## Counts -/

theorem maxRecordLength_eq_ok_iff :
    c.maxRecordLength = .ok max ↔
      ∃ B, c.compressor.bound blockSize = some B ∧ min B (UInt32.size - 1) = max := by
  unfold maxRecordLength boundFor
  cases c.compressor.bound blockSize <;> simp [Except.map]

/-- **A count is the number of the records that the stream consists of.** -/
theorem framing_of_recordCount (h : c.recordCount stream = .ok n) :
    ∃ max records, c.maxRecordLength = .ok max ∧
      (Reader.ofStream stream max).Finds records none ∧
      (Reader.ofStream stream max).Framed records none ∧ records.length = n := by
  cases hmax : c.maxRecordLength with
  | error e =>
    rw [recordCount, records, hmax] at h
    cases h
  | ok max =>
    rw [recordCount_eq hmax] at h
    cases hviolation : (Reader.ofStream stream max).walk.violation with
    | some e =>
      rw [hviolation] at h
      cases h
    | none =>
      rw [hviolation] at h
      have hfinds := Reader.finds_walk (.ofStream stream max)
      have hframed := Reader.framed_walk (.ofStream stream max) rfl (Nat.zero_le _)
      rw [hviolation] at hfinds hframed
      exact ⟨max, _, rfl, hfinds, hframed, Except.ok.inj h⟩

/-- **Payloads that fit their records are counted.** -/
theorem recordCount_of_payloads {payloads : List ByteArray} (hmax : c.maxRecordLength = .ok max)
    (hpayloads : ∀ payload ∈ payloads, Payload max payload)
    (hbytes : stream.data.toList = payloads.flatMap recordBytes) :
    c.recordCount stream = .ok payloads.length := by
  obtain ⟨hviolation, hrecords⟩ := Reader.walk_of_payloads (r := .ofStream stream max) rfl hpayloads
    (segment_zero_iff.2 hbytes.symm)
  rw [recordCount_eq hmax, hviolation, ← hrecords, List.length_map]
  rfl

/-! ## Agreement -/

theorem size_of_packs {capacity : Nat} (h : c.compressor.WithinRoom)
    (hpacks : c.Packs level capacity payload block) :
    1 ≤ payload.size ∧ payload.size ≤ capacity := by
  obtain ⟨index, dst, hpack⟩ := hpacks
  obtain ⟨n, hresult, hn, rfl⟩ := Outcome.nonemptyBytes_eq_ok_iff.1 (pack_eq_ok_iff.1 hpack)
  have hle := h block level dst n hresult
  rw [Buffer.size_first _ hle]
  exact ⟨Nat.one_le_iff_ne_zero.2 hn, hle⟩

theorem payloads_of_largestAtBlockSize {payloads : List ByteArray} {scratch : Nat}
    (h : c.compressor.WithinRoom) (hbound : LargestAtBlockSize c.compressor.bound)
    (hscratch : c.boundFor (min data.size blockSize) = .ok scratch)
    (hpacks : List.Forall₂ (c.Packs level scratch) payloads (blocks blockSize data)) :
    ∃ max, c.maxRecordLength = .ok max ∧ ∀ payload ∈ payloads, Payload max payload := by
  have hsome := boundFor_eq_ok_iff.1 hscratch
  have hsize : ∀ payload ∈ payloads, 1 ≤ payload.size ∧ payload.size ≤ scratch := by
    intro payload hpayload
    obtain ⟨i, hi, rfl⟩ := List.mem_iff_getElem.1 hpayload
    rw [List.forall₂_iff_get] at hpacks
    exact size_of_packs h (hpacks.2 i hi (hpacks.1 ▸ hi))
  cases payloads with
  | nil =>
    -- no payloads, no blocks, no bytes
    have hzero : data.size = 0 := by
      have hcover := flatMap_blocks (show 0 < blockSize by decide) data
      rw [List.forall₂_nil_left_iff.1 hpacks] at hcover
      exact congrArg List.length hcover.symm
    rw [hzero, Nat.zero_min] at hsome
    obtain ⟨B, hB⟩ := hbound.empty scratch hsome
    exact ⟨_, maxRecordLength_eq_ok_iff.2 ⟨B, hB, rfl⟩, nofun⟩
  | cons first rest =>
    obtain ⟨block, bs, -, -, hblocks⟩ := List.forall₂_cons_left_iff.1 hpacks
    have hblock : block ∈ blocks blockSize data := hblocks ▸ List.mem_cons_self
    have hpos := size_pos_of_mem_blocks (by decide) hblock
    have hle := size_le_of_mem_blocks (by decide) hblock
    obtain ⟨hfirst, hroom⟩ := hsize first List.mem_cons_self
    obtain ⟨B, hB, hmax⟩ := hbound.le _ scratch (Nat.le_trans hpos hle) (Nat.min_le_right ..) hsome
      (Nat.le_trans hfirst hroom)
    refine ⟨_, maxRecordLength_eq_ok_iff.2 ⟨B, hB, rfl⟩, fun payload hpayload => ?_⟩
    obtain ⟨hone, hpayload⟩ := hsize payload hpayload
    have hword := Nat.le_trans (Nat.le_trans hpayload hmax) (Nat.min_le_right ..)
    exact ⟨hone, Nat.le_trans hpayload hmax, Nat.lt_of_le_sub_one (by decide) hword⟩

theorem readsFraming_of_largestAtBlockSize (h : c.compressor.WithinRoom)
    (hbound : LargestAtBlockSize c.compressor.bound) : c.ReadsFraming := by
  intro data level stream hstream
  obtain ⟨scratch, hscratch, payloads, hpacks, hbytes⟩ := payloads_of_compress hstream
  obtain ⟨max, hmax, hpayloads⟩ := payloads_of_largestAtBlockSize h hbound hscratch hpacks
  have hcount := recordCount_of_payloads hmax hpayloads hbytes
  rw [hpacks.length_eq.trans (length_blocks ..)] at hcount
  refine ⟨hcount, ?_⟩
  obtain ⟨max, records, hmax, hfinds, hframed, -⟩ := framing_of_recordCount hcount
  refine ⟨max, records, hmax, hfinds, fun record hrecord => ?_⟩
  obtain ⟨i, hi⟩ := List.getElem?_of_mem hrecord
  have hpayload := (hframed.record i record hi).2.2
  have hheader : (word32 stream record.offset).toNat = record.payload.size := hframed.header hi
  rw [hheader]
  exact ⟨hpayload.pos, hpayload.le_max⟩

/-! ## Disagreement -/

def ofFiller (bound : Nat → Option Nat) : Codec := ⟨filler bound, .sequential⟩

variable {bound : Nat → Option Nat} {b : Nat}

theorem size_of_packs_ofFiller (hpacks : (ofFiller bound).Packs level b payload block) :
    payload.size = b := by
  obtain ⟨index, dst, hpack⟩ := hpacks
  obtain ⟨n, hresult, -, rfl⟩ := Outcome.nonemptyBytes_eq_ok_iff.1 (pack_eq_ok_iff.1 hpack)
  cases hresult
  exact Buffer.size_first _ (Nat.le_refl _)

theorem compress_ofFiller (hpos : 1 ≤ data.size) (hsize : data.size ≤ blockSize)
    (hbound : bound data.size = some b) (hb : 1 ≤ b) :
    data.size ⌈/⌉ blockSize = 1 ∧
      ∃ stream, (ofFiller bound).compress data 1 = .ok stream ∧ stream.size = headerSize + b := by
  have hone : data.size ⌈/⌉ blockSize = 1 := by
    show (data.size + blockSize - 1) / blockSize = 1
    rw [Nat.div_eq_iff (by decide)]
    omega
  have hscratch : (ofFiller bound).Bounded data b := by
    refine ⟨⟨b, boundFor_eq_ok_iff.2 hbound⟩, boundFor_eq_ok_iff.2 ?_⟩
    rw [Nat.min_eq_left hsize]
    exact hbound
  obtain ⟨stream, hstream⟩ : ∃ stream, (ofFiller bound).packFrom 1 0 (blocks blockSize data)
      (Buffer.zeros b) ByteArray.empty = .ok stream :=
    exists_packFrom _ _ _ fun block _ index scratch => ⟨_, pack_eq_ok_iff.2
      (Outcome.nonemptyBytes_eq_ok_iff.2 ⟨b, rfl, Nat.one_le_iff_ne_zero.1 hb, rfl⟩)⟩
  obtain ⟨payloads, hpacks, hbytes⟩ := payloads_of_packFrom hstream
  have hlength : payloads.length = 1 := hpacks.length_eq.trans ((length_blocks ..).trans hone)
  obtain ⟨payload, rfl⟩ := List.length_eq_one_iff.1 hlength
  obtain ⟨block, bs, hpack, -, -⟩ := List.forall₂_cons_left_iff.1 hpacks
  refine ⟨hone, stream, (compress_eq hscratch).trans hstream, ?_⟩
  have hstreamSize := congrArg List.length hbytes
  simpa [size_of_packs_ofFiller hpack] using hstreamSize

theorem size_of_framed {records : List Record}
    (h : (Reader.ofStream stream max).Framed records none) (hone : records.length = 1)
    (hsize : stream.size = headerSize + n) : n ≤ max := by
  obtain ⟨record, rfl⟩ := List.length_eq_one_iff.1 hone
  have hpayload := (h.record 0 record rfl).2.2.le_max
  have htotal : Record.totalLength [record] = stream.size := by
    simpa [Reader.ofStream] using h.ended rfl
  simp only [Record.totalLength, Record.encodedLength] at htotal
  exact Nat.le_trans (by omega) hpayload

theorem largestAtBlockSize_of_readsFraming (h : (ofFiller bound).ReadsFraming) :
    LargestAtBlockSize bound where
  empty := by
    intro b hb
    have hbounded : (ofFiller bound).Bounded ByteArray.empty b :=
      ⟨⟨b, boundFor_eq_ok_iff.2 hb⟩, boundFor_eq_ok_iff.2 hb⟩
    have hstream : (ofFiller bound).compress ByteArray.empty 1 = .ok ByteArray.empty :=
      compress_eq hbounded
    obtain ⟨-, max, records, hmax, -⟩ := h _ _ _ hstream
    obtain ⟨B, hB, -⟩ := maxRecordLength_eq_ok_iff.1 hmax
    exact ⟨B, hB⟩
  le := by
    intro length b hpos hsize hbound hb
    obtain ⟨data, rfl⟩ : ∃ data : ByteArray, data.size = length := ⟨zeros length, size_zeros length⟩
    obtain ⟨hone, stream, hstream, hstreamSize⟩ := compress_ofFiller hpos hsize hbound hb
    obtain ⟨hcount, -⟩ := h _ _ _ hstream
    obtain ⟨max, records, hmax, -, hframed, hrecords⟩ := framing_of_recordCount hcount
    obtain ⟨B, hB, rfl⟩ := maxRecordLength_eq_ok_iff.1 hmax
    exact ⟨B, hB, size_of_framed hframed (hrecords.trans hone) hstreamSize⟩

end Codec

end BlockStream
