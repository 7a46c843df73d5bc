import BlockStream.Proofs.Lz4.Stability
import BlockStream.Proofs.Stream.Parts
import BlockStream.Proofs.Stream.Workers
import BlockStream.Stream.Lz4

/-!
# One worker and many

Parts whose outcomes are independent of each other can be had in any order, as long as the first
failure in the order of the stream is the one that counts.
-/

namespace BlockStream.Codec

variable {c : Codec} {data : ByteArray} {level : Int32} {max scratch : Nat}

/-! ## Workers -/

theorem run_pack_eq (h : c.compressor.Stable) (A : Assignment) (level : Int32)
    (fresh : Unit → Buffer scratch) (bs : List ByteArray) :
    appendRecords (A.run (c.pack level) fresh bs.toArray) ByteArray.empty =
      inTurn (c.packed level scratch) (fun index _ => .compress index) pushRecord 0 bs
        ByteArray.empty := by
  rw [A.run_eq_mapIdx (pack_eq h level), appendRecords_eq_foldlM, ← foldlM_mapIdx_eq_inTurn]
  simp only [Nat.zero_add]

theorem run_unpack_eq (h : c.compressor.DecompressesStably) (A : Assignment)
    (fresh : Unit → Buffer blockSize) (records : Array Record) :
    appendBytes (A.run (fun scratch _ record => c.unpack scratch record) fresh records)
        ByteArray.empty =
      inTurn c.unpacked (fun _ record => .decompress record.index record.offset) (· ++ ·) 0
        records.toList ByteArray.empty := by
  rw [A.run_eq_mapIdx fun scratch _ record => unpack_eq h scratch record, appendBytes_eq_foldlM,
    ← foldlM_mapIdx_eq_inTurn]

/-- **Compression does not depend on who compresses a block.** -/
theorem compressAcross_eq (h : c.compressor.Stable) (A : Assignment) (data : ByteArray)
    (level : Int32) : c.compressAcross A data level = c.compress data level := by
  cases hbound : c.boundFor data.size with
  | error e =>
    rw [compressAcross, compress, hbound, error_bind, error_bind]
  | ok bound =>
    rw [compressAcross, hbound, ok_bind]
    by_cases hsize : data.size ≤ blockSize
    · rw [if_pos hsize]
    · -- The longest block is a full one, so both ways ask for the same two bounds.
      have hmin : min data.size blockSize = blockSize := Nat.min_eq_right (by omega)
      rw [if_neg hsize]
      cases hscratch : c.boundFor blockSize with
      | error e =>
        have hpos : data.size ≠ 0 := by omega
        rw [compress, hbound, ok_bind, if_neg hpos, hmin, hscratch, error_bind, error_bind]
      | ok scratch =>
        rw [compress_eq ⟨⟨bound, hbound⟩, hmin ▸ hscratch⟩, packFrom_eq_inTurn h, ok_bind,
          emptyWithCapacity_eq, run_pack_eq h]

/-- **Decompression does not depend on who decompresses a record.** -/
theorem decompressAcross_eq (h : c.compressor.DecompressesStably) (A : Assignment)
    (stream : ByteArray) : c.decompressAcross A stream = c.decompress stream := by
  cases hmax : c.maxRecordLength with
  | error e =>
    rw [decompressAcross, decompress, records, hmax, Except.map, error_bind, error_bind]
  | ok max =>
    rw [decompressAcross, records, hmax, Except.map, ok_bind]
    by_cases hsize : (Reader.ofStream stream max).walk.records.size ≤ 1
    · rw [if_pos hsize]
    · rw [if_neg hsize, decompress_eq hmax, unpackFrom_eq_inTurn h _ _ 0]
      dsimp only
      rw [run_unpack_eq h]
      rfl

theorem compressParallel_eq (h : c.compressor.Stable) (data : ByteArray) (level : Int32) :
    c.compressParallel data level = c.compress data level := by
  unfold compressParallel
  split
  · rfl
  · exact compressAcross_eq h ..

theorem decompressParallel_eq (h : c.compressor.DecompressesStably) (stream : ByteArray) :
    c.decompressParallel stream = c.decompress stream := by
  unfold decompressParallel
  split
  · rfl
  · exact decompressAcross_eq h ..

/-! ## Failures -/

/-- The outcomes of all blocks of data, each in a new scratch buffer. -/
def blockOutcomes (c : Codec) (level : Int32) (scratch : Nat) (data : ByteArray) :
    List (Outcome scratch) :=
  (blocks blockSize data).map (c.packed level scratch)

/-- The outcomes of all records, each in a new scratch buffer. -/
def recordOutcomes (c : Codec) (records : Array Record) : List (Outcome blockSize) :=
  records.toList.map c.unpacked

/-- Compression reports the first block that fails, and succeeds if there is none. -/
structure ReportsFirstBlock (c : Codec) (data : ByteArray) (level : Int32) : Prop where
  error_iff : ∀ i e, c.compress data level = .error (.compress i e) ↔
    ∃ scratch, c.Bounded data scratch ∧ FirstFailure (c.blockOutcomes level scratch data) i e
  ok_iff : (∃ stream, c.compress data level = .ok stream) ↔
    ∃ scratch, c.Bounded data scratch ∧ ∀ o ∈ c.blockOutcomes level scratch data, o.Succeeds

/-- Decompression reports the first record that fails, then a violation of the format, and
succeeds if there is neither. -/
structure ReportsFirstRecord (c : Codec) (stream : ByteArray) : Prop where
  error_iff : ∀ i offset e, c.decompress stream = .error (.decompress i offset e) ↔
    ∃ max, c.maxRecordLength = .ok max ∧
      FirstFailure (c.recordOutcomes (Reader.ofStream stream max).walk.records) i e ∧
      ∃ record, (Reader.ofStream stream max).walk.records[i]? = some record ∧
        record.offset = offset
  format_iff : ∀ e, c.decompress stream = .error (.format e) ↔
    ∃ max, c.maxRecordLength = .ok max ∧
      (Reader.ofStream stream max).walk.violation = some e ∧
      ∀ o ∈ c.recordOutcomes (Reader.ofStream stream max).walk.records, o.Succeeds
  ok_iff : (∃ data, c.decompress stream = .ok data) ↔
    ∃ max, c.maxRecordLength = .ok max ∧
      (Reader.ofStream stream max).walk.violation = none ∧
      ∀ o ∈ c.recordOutcomes (Reader.ofStream stream max).walk.records, o.Succeeds

theorem compress_eq_inTurn (h : c.compressor.Stable) (hbounded : c.Bounded data scratch) :
    c.compress data level =
      inTurn (c.packed level scratch) (fun index _ => .compress index) pushRecord 0
        (blocks blockSize data) ByteArray.empty := by
  rw [compress_eq hbounded, packFrom_eq_inTurn h]

theorem reportsFirstBlock (h : c.compressor.Stable) (data : ByteArray) (level : Int32) :
    c.ReportsFirstBlock data level := by
  by_cases hbounded : ∃ scratch, c.Bounded data scratch
  · obtain ⟨scratch, hscratch⟩ := hbounded
    constructor
    · intro i e
      rw [compress_eq_inTurn h hscratch, inTurn_eq_error_iff, hscratch.exists_iff]
      constructor
      · rintro ⟨k, block, e', -, hfirst, heq⟩
        rw [Nat.zero_add] at heq
        cases heq
        exact hfirst
      · intro hfirst
        obtain ⟨block, hblock⟩ := hfirst.exists_job
        exact ⟨i, block, e, hblock, hfirst, by rw [Nat.zero_add]⟩
    · rw [compress_eq_inTurn h hscratch, inTurn_eq_ok_iff, hscratch.exists_iff]
      rfl
  · obtain ⟨n, hn⟩ := compress_of_not_bounded hbounded level
    constructor <;> simp [hn, not_exists.1 hbounded]

theorem decompress_eq_inTurn (h : c.compressor.DecompressesStably)
    (hmax : c.maxRecordLength = .ok max) (stream : ByteArray) :
    c.decompress stream =
      inTurn c.unpacked (fun _ record => .decompress record.index record.offset) (· ++ ·) 0
        (Reader.ofStream stream max).walk.records.toList ByteArray.empty >>=
          close (Reader.ofStream stream max).walk := by
  rw [decompress_eq hmax, unpackFrom_eq_inTurn h _ _ 0]

theorem bind_close_eq_ok_iff {x : Except StreamError ByteArray} {walk : Reader.Walk} :
    (x >>= close walk) = .ok data ↔ walk.violation = none ∧ x = .ok data := by
  cases x with
  | error e => simp [error_bind]
  | ok bytes => cases h : walk.violation <;> simp [ok_bind, close, h]

theorem bind_close_eq_error_iff {x : Except StreamError ByteArray} {walk : Reader.Walk}
    {error : StreamError} :
    (x >>= close walk) = .error error ↔
      x = .error error ∨
        ∃ e, error = .format e ∧ walk.violation = some e ∧ ∃ bytes, x = .ok bytes := by
  cases x with
  | error e => simp [error_bind]
  | ok bytes => cases h : walk.violation <;> simp [ok_bind, close, h, eq_comm]

theorem maxRecordLength_eq_error {e : StreamError} (h : c.maxRecordLength = .error e) :
    e = .bound blockSize := by
  cases hbound : c.boundFor blockSize with
  | error e' =>
    rw [maxRecordLength, hbound] at h
    exact (Except.error.inj h).symm.trans (boundFor_eq_error_iff.1 hbound).2
  | ok n =>
    rw [maxRecordLength, hbound] at h
    cases h

theorem reportsFirstRecord (h : c.compressor.DecompressesStably) (stream : ByteArray) :
    c.ReportsFirstRecord stream := by
  cases hmax : c.maxRecordLength with
  | error e =>
    obtain rfl := maxRecordLength_eq_error hmax
    have hdecompress : c.decompress stream = .error (.bound blockSize) := by
      rw [decompress, records, hmax, Except.map, error_bind]
    constructor <;> simp [hdecompress, hmax]
  | ok max =>
    have hdecompress := decompress_eq_inTurn h hmax stream
    constructor
    · intro i offset e
      rw [hdecompress, bind_close_eq_error_iff, inTurn_eq_error_iff]
      simp only [hmax, Except.ok.injEq, exists_eq_left', reduceCtorEq, false_and, exists_false,
        or_false, Array.getElem?_toList]
      constructor
      · -- The error names the record by the index it carries, which is its place in the walk.
        rintro ⟨k, record, e', hrecord, hfirst, heq⟩
        obtain rfl := Reader.index_of_mem_walk_ofStream hrecord
        cases heq
        exact ⟨hfirst, record, hrecord, rfl⟩
      · rintro ⟨hfirst, record, hrecord, rfl⟩
        obtain rfl := Reader.index_of_mem_walk_ofStream hrecord
        exact ⟨record.index, record, e, hrecord, hfirst, rfl⟩
    · intro e
      rw [hdecompress, bind_close_eq_error_iff, inTurn_eq_error_iff, inTurn_eq_ok_iff]
      simp only [hmax, Except.ok.injEq, exists_eq_left', reduceCtorEq, and_false, exists_false,
        false_or, StreamError.format.injEq]
      rfl
    · simp only [hdecompress, bind_close_eq_ok_iff, exists_and_left, inTurn_eq_ok_iff, hmax,
        Except.ok.injEq, exists_eq_left']
      rfl

/-- **Both ways have the same result.** It does not depend on the number of workers, nor on who does
what; and it is the first failure in the order of the stream, if there is one. -/
theorem parallel_eq_sequential (h : c.compressor.Stable) :
    (∀ data level, c.compressParallel data level = c.compress data level ∧
      (∀ A, c.compressAcross A data level = c.compress data level) ∧
      c.ReportsFirstBlock data level) ∧
    ∀ stream, c.decompressParallel stream = c.decompress stream ∧
      (∀ A, c.decompressAcross A stream = c.decompress stream) ∧ c.ReportsFirstRecord stream := by
  refine ⟨fun data level => ⟨?_, ?_, ?_⟩, fun stream => ⟨?_, ?_, ?_⟩⟩
  · exact compressParallel_eq h data level
  · exact fun A => compressAcross_eq h A data level
  · exact reportsFirstBlock h data level
  · exact decompressParallel_eq h.decompress stream
  · exact fun A => decompressAcross_eq h.decompress A stream
  · exact reportsFirstRecord h.decompress stream

/-- A record that decodes, one that does not, and a cut header: the second record is reported. -/
theorem decompressParallel_eq_of_malformed :
    let stream : ByteArray := ⟨#[2, 0, 0, 0, 0x10, 0x62, 4, 0, 0, 0, 0x11, 0x61, 9, 0, 1]⟩
    (Codec.lz4 (.ofWorkers 4)).decompressParallel stream =
      .error (.decompress 1 6 .malformedInput) := by
  intro stream
  have hmax : (lz4 (.ofWorkers 4)).maxRecordLength = .ok 1052704 := by decide +kernel
  have hrecords : (Reader.ofStream stream 1052704).walk.records =
      #[⟨0, 0, ⟨#[0x10, 0x62]⟩⟩, ⟨1, 6, ⟨#[0x11, 0x61, 9, 0]⟩⟩] := by decide +kernel
  have hfirst : ((lz4 (.ofWorkers 4)).unpacked ⟨0, 0, ⟨#[0x10, 0x62]⟩⟩).result = .ok 1 := by
    decide +kernel
  have hsecond : ((lz4 (.ofWorkers 4)).unpacked ⟨1, 6, ⟨#[0x11, 0x61, 9, 0]⟩⟩).result =
      .error .malformedInput := by decide +kernel
  obtain ⟨heq, -, hreports⟩ :=
    (parallel_eq_sequential (c := Codec.lz4 (.ofWorkers 4)) stable_lz4).2 stream
  rw [heq, hreports.error_iff]
  refine ⟨_, hmax, ?_, ?_⟩
  · rw [recordOutcomes, hrecords]
    refine firstFailure_cons_succ.2 ⟨⟨1, hfirst, by decide⟩, ?_⟩
    exact firstFailure_cons_zero.2 (.inl hsecond)
  · rw [hrecords]
    exact ⟨_, rfl, rfl⟩

end BlockStream.Codec
