import BlockStream.Proofs.Lz4.Capacity
import BlockStream.Proofs.Stream.Parallel

/-! # Scratch buffers -/

namespace BlockStream

variable {capacity : Nat}

/-! ## One array -/

theorem Checked.same_compressInto (block : ByteArray) (level : Int32) (dst dst' : Buffer capacity) :
    ∃ o o', compressInto block level dst = .ok o ∧ compressInto block level dst' = .ok o' ∧
      o.Same o' := by
  by_cases hsize : block.size ≤ Lz4.maxInput
  · obtain ⟨o, ho, hdelivers⟩ := delivers_compressInto hsize level dst
    obtain ⟨o', ho', hdelivers'⟩ := delivers_compressInto hsize level dst'
    exact ⟨o, o', ho, ho', Outcome.same_of_delivers hdelivers hdelivers'⟩
  · rw [compressInto, compressInto, if_pos (Nat.not_le.1 hsize), if_pos (Nat.not_le.1 hsize)]
    exact ⟨_, _, rfl, rfl, Outcome.same_of_error rfl rfl⟩

/-! ## One job after the other -/

namespace Codec

/-- Each job comes to what it comes to in a new buffer, whatever the scratch buffer holds at first
and whatever the jobs before leave in it: in a walk through a stream, in the share of a worker, and
for the blocks of data. -/
structure IgnoresScratch (c : Codec) : Prop where
  unpackFrom : ∀ (r : Reader) (scratch : Buffer blockSize) (out : ByteArray),
    c.unpackFrom r scratch out =
      inTurn c.unpacked (fun _ record => .decompress record.index record.offset) (· ++ ·) 0
        r.walk.records.toList out >>= close r.walk
  unpackShare : ∀ (records : Array Record) (scratch : Buffer blockSize) (share : List Nat),
    Assignment.doShare (fun scratch _ record => c.unpack scratch record) records scratch share =
      share.filterMap (Assignment.numbered
        (fun _ record => (c.unpack (Buffer.zeros blockSize) record).1) records.toList)
  packFrom : ∀ (level : Int32) (index : Nat) (bs : List ByteArray) {capacity : Nat}
    (scratch : Buffer capacity) (out : ByteArray),
    c.packFrom level index bs scratch out =
      inTurn (c.packed level capacity) (fun index _ => .compress index) pushRecord index bs out
  packShare : ∀ (level : Int32) (bs : Array ByteArray) {capacity : Nat} (scratch : Buffer capacity)
    (share : List Nat),
    Assignment.doShare (c.pack level) bs scratch share =
      share.filterMap (Assignment.numbered
        (fun index block => (c.pack level (Buffer.zeros capacity) index block).1) bs.toList)

/-- **Jobs can share a buffer** where the results of the compressor do not depend on old bytes. -/
theorem ignoresScratch_of_stable {c : Codec} (h : c.compressor.Stable) : c.IgnoresScratch where
  unpackFrom r scratch out := unpackFrom_eq_inTurn h.decompress r scratch 0 out
  unpackShare records scratch share :=
    Assignment.doShare_eq (fun scratch _ record =>
      (unpack_eq h.decompress scratch record).trans
        (unpack_eq h.decompress (Buffer.zeros _) record).symm)
      records scratch share
  packFrom _ index bs _ scratch out := packFrom_eq_inTurn h index bs scratch out
  packShare level bs _ scratch share :=
    Assignment.doShare_eq (fun scratch index block =>
      (pack_eq h level scratch index block).trans
        (pack_eq h level (Buffer.zeros _) index block).symm) bs scratch share

end Codec

/-- **Old bytes never leak.** Two destinations of one size have the same result with the same bytes,
whatever they held before, for decoding and for encoding; and a buffer can be used for any number of
jobs, one after the other, as if each had a new one. -/
theorem ignores_old_bytes (config : Config) :
    (∀ (block : ByteArray) {capacity : Nat} (dst dst' : Buffer capacity),
      (Lz4.decompressInto block dst).Same (Lz4.decompressInto block dst')) ∧
    (∀ (block : ByteArray) (level : Int32) {capacity : Nat} (dst dst' : Buffer capacity),
      (Lz4.compressInto block level dst).Same (Lz4.compressInto block level dst') ∧
        ∃ o o', Checked.compressInto block level dst = .ok o ∧
          Checked.compressInto block level dst' = .ok o' ∧ o.Same o') ∧
    (Codec.lz4 config).IgnoresScratch := by
  refine ⟨fun block _ dst dst' => ?_, fun block level _ dst dst' => ⟨?_, ?_⟩, ?_⟩
  · exact Lz4.same_decompressInto block dst dst'
  · exact Lz4.same_compressInto block level dst dst'
  · exact Checked.same_compressInto block level dst dst'
  · exact Codec.ignoresScratch_of_stable stable_lz4

end BlockStream
