import BlockStream.Proofs.Lz4.Safety
import BlockStream.Proofs.Record.Safety
import BlockStream.Proofs.Stream.Lz4

/-! # Any bytes can be decompressed safely -/

namespace BlockStream

theorem Codec.records_lz4 (config : Config) (stream : ByteArray) :
    (lz4 config).records stream = .ok (.ofStream stream (blockSize + blockSize / 255 + 16)) := by
  rw [records, maxRecordLength_lz4]
  rfl

namespace Checked

variable {r : Reader}

/-! ## One record -/

/-- The bytes of a block operation that must produce some, taken from the front of the buffer. -/
def nonemptyBytes {capacity : Nat} (o : Outcome capacity) :
    Except Fault (Except BlockError ByteArray) :=
  match o.result with
  | .ok 0 => return .error .emptyOutput
  | .ok n => do
    let bytes ← slice o.buffer.bytes 0 n
    return .ok bytes
  | .error e => return .error e

def unpack (scratch : Buffer blockSize) (record : Record) :
    Except Fault (Except StreamError ByteArray × Buffer blockSize) := do
  let o ← decompressInto .all record.payload scratch
  let bytes ← nonemptyBytes o
  return (bytes.mapError (.decompress record.index record.offset), o.buffer)

theorem nonemptyBytes_eq {capacity : Nat} {o : Outcome capacity}
    (h : ∀ n, o.result = .ok n → n ≤ capacity) : nonemptyBytes o = pure o.nonemptyBytes := by
  unfold nonemptyBytes Outcome.nonemptyBytes
  cases hresult : o.result with
  | error e => rfl
  | ok n =>
    cases n with
    | zero => rfl
    | succ n =>
      have hle := h _ hresult
      rw [← o.buffer.size_eq] at hle
      show slice o.buffer.bytes 0 (n + 1) >>= _ = _
      rw [slice_of_le (Nat.zero_le _) hle]
      rfl

theorem unpack_eq (config : Config) (scratch : Buffer blockSize) (record : Record) :
    unpack scratch record = pure ((Codec.lz4 config).unpack scratch record) := by
  rw [unpack, decompressInto_eq, pure_bind,
    nonemptyBytes_eq fun n => Lz4.le_capacity_of_decompressInto, pure_bind]
  rfl

/-! ## Streams -/

/-- Decompress the records ahead of a reader in at most the given rounds, and append their bytes
to `out`. -/
def unpackFrom : (rounds : Nat) → Reader → Buffer blockSize → (out : ByteArray) →
    Except Fault (Except StreamError ByteArray)
  | 0, _, _, _ => throw .unfinished
  | rounds + 1, r, scratch, out => do
    match ← next r with
    | (none, _) => return .ok out
    | (some (.error e), _) => return .error (.format e)
    | (some (.ok record), r') =>
      match ← unpack scratch record with
      | (.error e, _) => return .error e
      | (.ok bytes, scratch) => unpackFrom rounds r' scratch (out ++ bytes)

def decompress (config : Config) (stream : ByteArray) :
    Except Fault (Except StreamError ByteArray) :=
  match (Codec.lz4 config).records stream with
  | .error e => return .error e
  | .ok reader =>
    if stream.size = 0 then return .ok ByteArray.empty
    else unpackFrom (stream.size + 1) reader (Buffer.zeros blockSize) ByteArray.empty

def recordCount (config : Config) (stream : ByteArray) : Except Fault (Except StreamError Nat) := do
  match (Codec.lz4 config).records stream with
  | .error e => return .error e
  | .ok reader =>
    let walk ← walk reader
    match walk.violation with
    | some e => return .error (.format e)
    | none => return .ok walk.records.size

def decompressOrEmpty (stream : ByteArray) : Except Fault ByteArray := do
  let data ← decompress .sequential stream
  return data.toOption.getD ByteArray.empty

theorem unpackFrom_eq (config : Config) {rounds : Nat} (h : r.remaining < rounds)
    (scratch : Buffer blockSize) (out : ByteArray) :
    unpackFrom rounds r scratch out = pure ((Codec.lz4 config).unpackFrom r scratch out) := by
  induction rounds generalizing r scratch out with
  | zero => omega
  | succ rounds ih =>
    rw [unpackFrom, next_eq, pure_bind]
    match hnext : r.next with
    | (none, r') => rw [Codec.unpackFrom_of_next_none hnext]
    | (some (.error e), r') => rw [Codec.unpackFrom_of_next_error hnext]
    | (some (.ok record), r') =>
      have hlt := Reader.remaining_lt_of_next hnext
      dsimp only
      rw [unpack_eq config, pure_bind]
      match hunpack : (Codec.lz4 config).unpack scratch record with
      | (.error e, scratch') =>
        rw [Codec.unpackFrom_of_unpack_error hnext (congrArg Prod.fst hunpack)]
      | (.ok bytes, scratch') =>
        rw [Codec.unpackFrom_of_unpack_ok hnext (congrArg Prod.fst hunpack), hunpack]
        exact ih (by omega) ..

theorem decompress_eq (config : Config) (stream : ByteArray) :
    decompress config stream = pure ((Codec.lz4 config).decompress stream) := by
  rw [decompress, Codec.decompress, Codec.records_lz4, Codec.ok_bind]
  dsimp only
  split
  · rfl
  · exact unpackFrom_eq config (Nat.lt_succ_of_le (Reader.remaining_le _)) ..

theorem recordCount_eq (config : Config) (stream : ByteArray) :
    recordCount config stream = pure ((Codec.lz4 config).recordCount stream) := by
  rw [recordCount, Codec.recordCount, Codec.records_lz4, Codec.ok_bind]
  dsimp only
  rw [walk_eq, pure_bind]
  cases (Reader.ofStream stream _).walk.violation <;> rfl

theorem decompressOrEmpty_eq (stream : ByteArray) :
    decompressOrEmpty stream = pure (BlockStream.decompressOrEmpty stream) := by
  rw [decompressOrEmpty, decompress_eq, pure_bind]
  rfl

/-! ## Workers -/

/-- Decompress a record for a worker, who goes on with the old buffer after a fault. -/
def work (scratch : Buffer blockSize) (_ : Nat) (record : Record) :
    Except Fault (Except StreamError ByteArray) × Buffer blockSize :=
  match unpack scratch record with
  | .error fault => (.error fault, scratch)
  | .ok (part, scratch) => (.ok part, scratch)

/-- Decompress a stream, with its records dealt out to workers. A fault of any worker is one of the
whole operation. -/
def decompressAcross (config : Config) (A : Assignment) (stream : ByteArray) :
    Except Fault (Except StreamError ByteArray) := do
  match (Codec.lz4 config).records stream with
  | .error e => return .error e
  | .ok reader =>
    let walk ← walk reader
    if walk.records.size ≤ 1 then decompress config stream
    else
      let parts ← (A.run work (fun _ => Buffer.zeros blockSize) walk.records).mapM id
      return Codec.appendBytes parts ByteArray.empty >>= Codec.close walk

def decompressParallel (config : Config) (stream : ByteArray) :
    Except Fault (Except StreamError ByteArray) :=
  if config.workers ≤ 1 then decompress config stream
  else decompressAcross config (.contiguous config.workers) stream

theorem work_eq (config : Config) :
    work = fun scratch _ record => (.ok ((Codec.lz4 config).unpack scratch record).1,
      ((Codec.lz4 config).unpack scratch record).2) := by
  funext scratch number record
  rw [work, unpack_eq config]
  rfl

/-- **No worker faults.** -/
theorem run_work_eq (config : Config) (A : Assignment) (fresh : Unit → Buffer blockSize)
    (records : Array Record) :
    A.run work fresh records =
      (A.run (fun scratch _ record => (Codec.lz4 config).unpack scratch record) fresh records).map
        Except.ok := by
  have hunpack (scratch : Buffer blockSize) (_ : Nat) (record : Record) :=
    Codec.unpack_eq (c := Codec.lz4 config) stable_lz4.decompress scratch record
  rw [A.run_eq_mapIdx hunpack, work_eq config, A.run_eq_mapIdx fun scratch number record =>
    congrArg Except.ok (hunpack scratch number record)]
  exact List.ext_getElem? fun i => by simp [List.getElem?_mapIdx, Function.comp_def]

theorem mapM_id_map_ok {α : Type} (parts : List α) :
    (parts.map (Except.ok : α → Except Fault α)).mapM id = pure parts := by
  induction parts with
  | nil => rfl
  | cons part parts ih =>
    rw [List.map_cons, List.mapM_cons, ih]
    rfl

theorem decompressAcross_eq (config : Config) (A : Assignment) (stream : ByteArray) :
    decompressAcross config A stream = pure ((Codec.lz4 config).decompressAcross A stream) := by
  rw [decompressAcross, Codec.decompressAcross, Codec.records_lz4, Codec.ok_bind]
  dsimp only
  rw [walk_eq, pure_bind]
  split
  · rw [decompress_eq]
  · rw [run_work_eq config, mapM_id_map_ok, pure_bind]
    rfl

theorem decompressParallel_eq (config : Config) (stream : ByteArray) :
    decompressParallel config stream = pure ((Codec.lz4 config).decompressParallel stream) := by
  show _ = pure (if config.workers ≤ 1 then _ else _)
  rw [decompressParallel]
  split
  · exact decompress_eq ..
  · exact decompressAcross_eq ..

/-- **Whatever the bytes are, nothing is accessed out of range, and everything ends.** Every block
is decoded into every destination, in at most as many rounds as it has bytes, since each round moves
on; and every stream is decompressed and counted, by one worker or by many. No more is written than
the destination holds. -/
theorem decompression_in_range :
    (∀ (block : ByteArray) {capacity : Nat} (dst : Buffer capacity),
      decompressInto .all block dst = .ok (Lz4.decompressInto block dst) ∧
      ∀ n, (Lz4.decompressInto block dst).result = .ok n → n ≤ capacity) ∧
    (∀ (block : ByteArray) {capacity : Nat} (d d' : Lz4.Decoder capacity),
      step .all block d = .ok (.more d') → d.pos < d'.pos ∧ d'.pos < block.size) ∧
    ∀ (config : Config) (stream : ByteArray),
      decompress config stream = .ok ((Codec.lz4 config).decompress stream) ∧
      decompressParallel config stream = .ok ((Codec.lz4 config).decompressParallel stream) ∧
      (∀ A, decompressAcross config A stream =
        .ok ((Codec.lz4 config).decompressAcross A stream)) ∧
      recordCount config stream = .ok ((Codec.lz4 config).recordCount stream) ∧
      decompressOrEmpty stream = .ok (BlockStream.decompressOrEmpty stream) := by
  refine ⟨fun block capacity dst => ⟨?_, ?_⟩, ?_, fun config stream => ⟨?_, ?_, ?_, ?_, ?_⟩⟩
  · exact decompressInto_eq block dst
  · exact fun n => Lz4.le_capacity_of_decompressInto
  · exact fun block capacity d d' => lt_of_step
  · exact decompress_eq config stream
  · exact decompressParallel_eq config stream
  · exact fun A => decompressAcross_eq config A stream
  · exact recordCount_eq config stream
  · exact decompressOrEmpty_eq stream

/-- A byte that is repeated five times, and a second round that ends the block. -/
theorem decompression_in_range_repeat :
    let block : ByteArray := ⟨#[0x11, 0x61, 1, 0, 0]⟩
    let dst : Buffer 6 := Buffer.ofBytes ⟨#[0, 0, 0, 0, 0, 0]⟩
    let d : Lz4.Decoder 6 := ⟨4, ⟨Buffer.ofBytes ⟨#[0x61, 0x61, 0x61, 0x61, 0x61, 0x61]⟩, 6⟩⟩
    (Lz4.decompressInto block dst).result = .ok 6 ∧ 6 ≤ 6 ∧
      step .all block ⟨0, Sink.ofBuffer dst⟩ = .ok (.more d) ∧ 0 < d.pos ∧ d.pos < block.size := by
  -- A closed equation, since local definitions keep numerals from being computed.
  have hmore : step .all ⟨#[0x11, 0x61, 1, 0, 0]⟩
      ⟨0, Sink.ofBuffer (Buffer.ofBytes ⟨#[0, 0, 0, 0, 0, 0]⟩)⟩ =
        .ok (.more ⟨4, ⟨Buffer.ofBytes ⟨#[0x61, 0x61, 0x61, 0x61, 0x61, 0x61]⟩, 6⟩⟩) := by rfl
  intro block dst d
  obtain ⟨hdecode, hstep, -⟩ := decompression_in_range
  have hresult : (Lz4.decompressInto block dst).result = .ok 6 := by decide +kernel
  exact ⟨hresult, (hdecode block dst).2 6 hresult, hmore, hstep block _ d hmore⟩

end Checked

end BlockStream
