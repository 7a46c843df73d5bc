import BlockStream.Proofs.Block.Sink
import BlockStream.Proofs.Bytes.Blocks
import BlockStream.Proofs.Record.Framing
import BlockStream.Stream.Codec
import Mathlib.Data.List.Forall2

/-!
# Streams there and back

What a codec writes is the records of payloads, one for each block; what it reads is the blocks of
these payloads. So it reads its own streams as soon as it reads its own payloads.
-/

namespace BlockStream

namespace Codec

variable {c : Codec} {level : Int32} {capacity max : Nat} {payload block data stream : ByteArray}
variable {payloads bs : List ByteArray}

/-! ## Sizes -/

theorem boundFor_eq_ok_iff {n b : Nat} : c.boundFor n = .ok b ↔ c.compressor.bound n = some b := by
  unfold boundFor
  cases c.compressor.bound n <;> simp

theorem boundFor_eq_error_iff {n : Nat} {e : StreamError} :
    c.boundFor n = .error e ↔ c.compressor.bound n = none ∧ e = .bound n := by
  unfold boundFor
  cases c.compressor.bound n <;> simp [eq_comm]

/-- The compressor has bounds for the data and for its longest block. -/
def Bounded (c : Codec) (data : ByteArray) (scratch : Nat) : Prop :=
  (∃ bound, c.boundFor data.size = .ok bound) ∧
    c.boundFor (min data.size blockSize) = .ok scratch

theorem Bounded.exists_iff {scratch : Nat} {P : Nat → Prop} (h : c.Bounded data scratch) :
    (∃ scratch, c.Bounded data scratch ∧ P scratch) ↔ P scratch := by
  constructor
  · rintro ⟨scratch', h', hP⟩
    obtain rfl := Except.ok.inj (h.2.symm.trans h'.2)
    exact hP
  · exact fun hP => ⟨scratch, h, hP⟩

/-! ## One block -/

/-- A scratch buffer of this capacity is one in which the block is compressed into the payload. -/
def Packs (c : Codec) (level : Int32) (capacity : Nat) (payload block : ByteArray) : Prop :=
  ∃ (index : Nat) (scratch : Buffer capacity), (c.pack level scratch index block).1 = .ok payload

/-- Whatever the scratch buffer holds, the payload is decompressed into the block. -/
def Unpacks (c : Codec) (payload block : ByteArray) : Prop :=
  ∀ scratch : Buffer blockSize,
    (c.compressor.decompress payload scratch).nonemptyBytes = .ok block

theorem pack_eq_ok_iff {scratch : Buffer capacity} {index : Nat} :
    (c.pack level scratch index block).1 = .ok payload ↔
      (c.compressor.compress block level scratch).nonemptyBytes = .ok payload := by
  unfold pack
  cases h : (c.compressor.compress block level scratch).nonemptyBytes <;> simp [Except.mapError, h]

theorem Unpacks.unpack_eq (h : c.Unpacks payload block) (scratch : Buffer blockSize)
    (index offset : Nat) :
    c.unpack scratch ⟨index, offset, payload⟩ =
      (.ok block, (c.compressor.decompress payload scratch).buffer) := by
  rw [unpack, h scratch]
  rfl

/-! ## Writing records -/

section Cons

variable {index : Nat} {scratch : Buffer capacity} {out : ByteArray}

theorem packFrom_cons_of_error {e : StreamError}
    (h : (c.pack level scratch index block).1 = .error e) :
    c.packFrom level index (block :: bs) scratch out = .error e := by
  have hpack : c.pack level scratch index block = (.error e, _) := Prod.ext h rfl
  rw [packFrom, hpack]

theorem packFrom_cons_of_ok (h : (c.pack level scratch index block).1 = .ok payload) :
    c.packFrom level index (block :: bs) scratch out =
      c.packFrom level (index + 1) bs (c.pack level scratch index block).2
        (pushRecord out payload) := by
  have hpack : c.pack level scratch index block =
      (.ok payload, (c.pack level scratch index block).2) := Prod.ext h rfl
  rw [packFrom, hpack]

end Cons

theorem payloads_of_packFrom {index : Nat} {scratch : Buffer capacity} {out : ByteArray}
    (h : c.packFrom level index bs scratch out = .ok stream) :
    ∃ payloads, List.Forall₂ (c.Packs level capacity) payloads bs ∧
      stream.data.toList = out.data.toList ++ payloads.flatMap recordBytes := by
  induction bs generalizing index scratch out with
  | nil =>
    obtain rfl := Except.ok.inj h
    exact ⟨[], .nil, (List.append_nil _).symm⟩
  | cons block rest ih =>
    cases hpack : (c.pack level scratch index block).1 with
    | error e =>
      rw [packFrom_cons_of_error hpack] at h
      cases h
    | ok payload =>
      rw [packFrom_cons_of_ok hpack] at h
      obtain ⟨payloads, hpacks, hbytes⟩ := ih h
      refine ⟨payload :: payloads, .cons ⟨index, scratch, hpack⟩ hpacks, ?_⟩
      rw [hbytes, toList_pushRecord_eq, List.flatMap_cons, List.append_assoc]

theorem exists_packFrom (index : Nat) (scratch : Buffer capacity) (out : ByteArray)
    (h : ∀ block ∈ bs, ∀ (index : Nat) (scratch : Buffer capacity),
      ∃ payload, (c.pack level scratch index block).1 = .ok payload) :
    ∃ stream, c.packFrom level index bs scratch out = .ok stream := by
  induction bs generalizing index scratch out with
  | nil => exact ⟨out, rfl⟩
  | cons block rest ih =>
    obtain ⟨payload, hpack⟩ := h block List.mem_cons_self index scratch
    rw [packFrom_cons_of_ok hpack]
    exact ih _ _ _ fun block hblock => h block (List.mem_cons_of_mem _ hblock)

/-! ## Reading records -/

section Next

variable {r r' : Reader} {record : Record} {scratch : Buffer capacity} {out : ByteArray}

theorem unpackFrom_of_next_none (h : r.next = (none, r')) :
    c.unpackFrom r scratch out = .ok out := by
  rw [unpackFrom]
  split
  · rfl
  · next h' => cases h.symm.trans h'
  · next h' => cases h.symm.trans h'

theorem unpackFrom_of_next_error {e : FormatError} (h : r.next = (some (.error e), r')) :
    c.unpackFrom r scratch out = .error (.format e) := by
  rw [unpackFrom]
  split
  · next h' => cases h.symm.trans h'
  · next h' => cases h.symm.trans h'; rfl
  · next h' => cases h.symm.trans h'

theorem unpackFrom_of_unpack_error {e : StreamError} (hnext : r.next = (some (.ok record), r'))
    (h : (c.unpack scratch record).1 = .error e) : c.unpackFrom r scratch out = .error e := by
  have hunpack : c.unpack scratch record = (.error e, _) := Prod.ext h rfl
  rw [unpackFrom]
  split
  · next h' => cases hnext.symm.trans h'
  · next h' => cases hnext.symm.trans h'
  · next h' =>
    cases hnext.symm.trans h'
    rw [hunpack]

theorem unpackFrom_of_unpack_ok (hnext : r.next = (some (.ok record), r'))
    (h : (c.unpack scratch record).1 = .ok block) :
    c.unpackFrom r scratch out = c.unpackFrom r' (c.unpack scratch record).2 (out ++ block) := by
  have hunpack : c.unpack scratch record = (.ok block, (c.unpack scratch record).2) :=
    Prod.ext h rfl
  rw [unpackFrom]
  split
  · next h' => cases hnext.symm.trans h'
  · next h' => cases hnext.symm.trans h'
  · next h' =>
    cases hnext.symm.trans h'
    rw [hunpack]

end Next

theorem unpackFrom_of_end {r : Reader} (h : r.stream.size ≤ r.offset) (scratch : Buffer blockSize)
    (out : ByteArray) : c.unpackFrom r scratch out = .ok out :=
  unpackFrom_of_next_none (Reader.next_of_end h)

theorem unpackFrom_of_segment {r : Reader} {stop : Nat} (hfailed : r.failed = false)
    (hp : Payload r.maxLength payload) (hu : c.Unpacks payload block)
    (hseg : Segment r.stream r.offset stop (recordBytes payload)) (scratch : Buffer blockSize)
    (out : ByteArray) :
    c.unpackFrom r scratch out =
      c.unpackFrom { r with offset := stop, index := r.index + 1 }
        (c.compressor.decompress payload scratch).buffer (out ++ block) := by
  have hunpack := hu.unpack_eq scratch r.index r.offset
  rw [unpackFrom_of_unpack_ok (Reader.next_of_segment hfailed hp hseg)
    (congrArg Prod.fst hunpack), hunpack]

/-- **Records that stand up to the end of a stream are read as their blocks.** -/
theorem unpackFrom_of_payloads {r : Reader} (hfailed : r.failed = false)
    (hread : List.Forall₂ (fun payload block =>
      Payload r.maxLength payload ∧ c.Unpacks payload block) payloads bs)
    (hseg : Segment r.stream r.offset r.stream.size (payloads.flatMap recordBytes))
    (scratch : Buffer blockSize) (out : ByteArray) :
    ∃ data, c.unpackFrom r scratch out = .ok data ∧
      data.data.toList = out.data.toList ++ bs.flatMap (·.data.toList) := by
  induction payloads generalizing r bs scratch out with
  | nil =>
    cases hread
    have hend := segment_nil_iff.1 hseg
    exact ⟨out, unpackFrom_of_end (Nat.le_of_eq hend) .., (List.append_nil _).symm⟩
  | cons payload payloads ih =>
    cases hread with
    | @cons _ block _ rest hfirst hrest =>
      obtain ⟨mid, hrecord, htail⟩ := segment_append_iff.1 hseg
      obtain ⟨data, hdata, hbytes⟩ :=
        ih (r := { r with offset := mid, index := r.index + 1 }) hfailed hrest htail
          (c.compressor.decompress payload scratch).buffer (out ++ block)
      refine ⟨data, ?_, ?_⟩
      · rw [unpackFrom_of_segment hfailed hfirst.1 hfirst.2 hrecord, hdata]
      · rw [hbytes, ByteArray.data_append, Array.toList_append, List.flatMap_cons,
          List.append_assoc]

/-! ## Whole streams -/

theorem emptyWithCapacity_eq (n : Nat) : ByteArray.emptyWithCapacity n = ByteArray.empty := rfl

theorem ok_bind {ε α β : Type} (a : α) (f : α → Except ε β) : (Except.ok a >>= f) = f a := rfl

theorem error_bind {ε α β : Type} (e : ε) (f : α → Except ε β) :
    (Except.error e >>= f) = .error e := rfl

theorem compress_eq {scratch : Nat} (h : c.Bounded data scratch) :
    c.compress data level =
      c.packFrom level 0 (blocks blockSize data) (Buffer.zeros scratch) ByteArray.empty := by
  obtain ⟨⟨bound, hbound⟩, hscratch⟩ := h
  rw [compress, hbound, ok_bind, hscratch, ok_bind, emptyWithCapacity_eq]
  by_cases hzero : data.size = 0
  · rw [if_pos hzero, blocks_of_size_eq_zero (by decide) hzero]
    rfl
  · rw [if_neg hzero]

theorem compress_of_not_bounded (h : ¬ ∃ scratch, c.Bounded data scratch) (level : Int32) :
    ∃ n, c.compress data level = .error (.bound n) := by
  cases hbound : c.boundFor data.size with
  | error e =>
    obtain ⟨-, rfl⟩ := boundFor_eq_error_iff.1 hbound
    exact ⟨_, by rw [compress, hbound, error_bind]⟩
  | ok bound =>
    cases hscratch : c.boundFor (min data.size blockSize) with
    | ok scratch => exact absurd ⟨scratch, ⟨bound, hbound⟩, hscratch⟩ h
    | error e =>
      obtain ⟨-, rfl⟩ := boundFor_eq_error_iff.1 hscratch
      have hpos : data.size ≠ 0 := by
        intro hzero
        rw [hzero, Nat.zero_min, ← hzero, hbound] at hscratch
        cases hscratch
      exact ⟨_, by rw [compress, hbound, ok_bind, hscratch, if_neg hpos, error_bind]⟩

theorem decompress_eq (hmax : c.maxRecordLength = .ok max) :
    c.decompress stream =
      c.unpackFrom (.ofStream stream max) (Buffer.zeros blockSize) ByteArray.empty := by
  rw [decompress, records, hmax, Except.map, ok_bind]
  by_cases hzero : stream.size = 0
  · rw [if_pos hzero, unpackFrom_of_end (Nat.le_of_eq hzero)]
    rfl
  · rw [if_neg hzero]

theorem payloads_of_compress (h : c.compress data level = .ok stream) :
    ∃ scratch, c.boundFor (min data.size blockSize) = .ok scratch ∧
      ∃ payloads, List.Forall₂ (c.Packs level scratch) payloads (blocks blockSize data) ∧
        stream.data.toList = payloads.flatMap recordBytes := by
  by_cases hbounded : ∃ scratch, c.Bounded data scratch
  · obtain ⟨scratch, hscratch⟩ := hbounded
    rw [compress_eq hscratch] at h
    exact ⟨scratch, hscratch.2, payloads_of_packFrom h⟩
  · obtain ⟨n, hn⟩ := compress_of_not_bounded hbounded level
    rw [hn] at h
    cases h

theorem decompress_of_payloads (hmax : c.maxRecordLength = .ok max)
    (hread : List.Forall₂ (fun payload block =>
      Payload max payload ∧ c.Unpacks payload block) payloads bs)
    (hbytes : stream.data.toList = payloads.flatMap recordBytes) :
    ∃ data, c.decompress stream = .ok data ∧
      data.data.toList = bs.flatMap (·.data.toList) := by
  rw [decompress_eq hmax]
  exact unpackFrom_of_payloads (r := .ofStream stream max) rfl hread
    (segment_zero_iff.2 hbytes.symm) ..

/-- **A codec that reads its payloads back reads its streams back.** -/
theorem decompress_of_compress (hmax : c.maxRecordLength = .ok max)
    (hread : ∀ scratch, c.boundFor (min data.size blockSize) = .ok scratch →
      ∀ block ∈ blocks blockSize data, ∀ payload, c.Packs level scratch payload block →
        Payload max payload ∧ c.Unpacks payload block)
    (h : c.compress data level = .ok stream) : c.decompress stream = .ok data := by
  obtain ⟨scratch, hscratch, payloads, hpacks, hbytes⟩ := payloads_of_compress h
  have hunpacks : List.Forall₂ (fun payload block =>
      Payload max payload ∧ c.Unpacks payload block) payloads (blocks blockSize data) := by
    rw [List.forall₂_iff_zip] at hpacks ⊢
    refine ⟨hpacks.1, fun hmem => ?_⟩
    exact hread scratch hscratch _ (List.of_mem_zip hmem).2 _ (hpacks.2 hmem)
  obtain ⟨out, hout, hdata⟩ := decompress_of_payloads hmax hunpacks hbytes
  rw [flatMap_blocks (by decide)] at hdata
  rw [hout, ext_of_toList hdata]

end Codec

end BlockStream
