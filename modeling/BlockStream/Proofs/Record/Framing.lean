import BlockStream.Proofs.Bytes.Words
import BlockStream.Record.Reader

/-! # Records as bytes -/

namespace BlockStream

def recordBytes (payload : ByteArray) : List UInt8 :=
  littleEndian headerSize payload.size ++ payload.data.toList

theorem toList_pushRecord_eq (stream payload : ByteArray) :
    (pushRecord stream payload).data.toList = stream.data.toList ++ recordBytes payload := by
  rw [toList_pushRecord, recordBytes, List.append_assoc]

@[simp] theorem length_recordBytes (payload : ByteArray) :
    (recordBytes payload).length = headerSize + payload.size := by
  rw [recordBytes, List.length_append, length_littleEndian, length_toList_data]

/-- A payload that a record can have where lengths up to `max` are allowed. -/
structure Payload (max : Nat) (payload : ByteArray) : Prop where
  pos : 1 ≤ payload.size
  le_max : payload.size ≤ max
  lt_word : payload.size < UInt32.size

namespace Reader

variable {r : Reader} {stop : Nat} {payload : ByteArray}

theorem next_of_end (h : r.stream.size ≤ r.offset) : r.next = (none, r) := if_pos (Or.inr h)

theorem header_of_segment (hp : payload.size < UInt32.size)
    (hseg : Segment r.stream r.offset stop (recordBytes payload)) :
    (word32 r.stream r.offset).toNat = payload.size ∧
      r.offset + headerSize + payload.size ≤ r.stream.size ∧
      Segment r.stream (r.offset + headerSize) stop payload.data.toList := by
  obtain ⟨mid, hheader, hpayload⟩ := segment_append_iff.1 hseg
  have hmid : mid = r.offset + headerSize := by rw [hheader.1, length_littleEndian]
  subst hmid
  obtain ⟨hsize, hvalue⟩ := (segment_littleEndian_iff hp).1 hheader
  have hin : r.offset + headerSize ≤ r.stream.size := hsize.resolve_left (by decide)
  have hstop := hpayload.stop_le hin
  rw [hpayload.1, length_toList_data] at hstop
  exact ⟨by rw [toNat_word32, hvalue]; rfl, hstop, hpayload⟩

theorem record_of_segment (hp : Payload r.maxLength payload)
    (hseg : Segment r.stream r.offset stop (recordBytes payload)) :
    r.record = .ok ⟨r.index, r.offset, payload⟩ := by
  obtain ⟨hlength, hroom, hpayload⟩ := header_of_segment hp.lt_word hseg
  have hpos := hp.pos
  have hmax := hp.le_max
  have hextract : r.stream.extract (r.offset + headerSize) (r.offset + headerSize + payload.size) =
      payload := by
    apply ext_of_toList
    rw [toList_extract, hpayload.eq_take, hpayload.1, length_toList_data]
  have hzero : word32 r.stream r.offset ≠ 0 := by
    intro h0
    rw [h0, UInt32.toNat_zero] at hlength
    omega
  unfold record
  simp only [hlength, hextract]
  rw [if_neg (by omega), if_neg (not_or.2 ⟨hzero, by omega⟩), if_neg (by omega)]

/-- **A record that was written is read back.** -/
theorem next_of_segment (hfailed : r.failed = false) (hp : Payload r.maxLength payload)
    (hseg : Segment r.stream r.offset stop (recordBytes payload)) :
    r.next = (some (.ok ⟨r.index, r.offset, payload⟩),
      { r with offset := stop, index := r.index + 1 }) := by
  have hroom := (header_of_segment hp.lt_word hseg).2.1
  have hmore : ¬ (r.failed = true ∨ r.stream.size ≤ r.offset) := by
    rw [hfailed]
    unfold headerSize at hroom
    simp only [Bool.false_eq_true, false_or]
    omega
  have hstop : stop = r.offset + Record.encodedLength ⟨r.index, r.offset, payload⟩ := by
    rw [hseg.1, length_recordBytes]
    rfl
  rw [next, if_neg hmore, record_of_segment hp hseg, hstop]

end Reader

end BlockStream
