import BlockStream.Proofs.Record.Parsing

/-!
# Readers of the front of a stream

A stream that is cut still has the records in front of the cut, and the record that the cut goes
through is missed. A cut between two records goes unnoticed.
-/

namespace BlockStream

/-! ## Records and cuts -/

namespace Record

def stop (record : Record) : Nat := record.offset + record.encodedLength

/-- The records that lie wholly in the first `cut` bytes. -/
def whole (cut : Nat) (records : List Record) : List Record :=
  records.filter fun record => record.stop ≤ cut

/-- What is wrong with a record of which only the bytes in front of `cut` are there. -/
def severed (cut : Nat) (record : Record) : FormatError :=
  let available := cut - record.offset
  if available < headerSize then .truncatedHeader record.offset available
  else .truncatedPayload record.offset record.payload.size.toUInt32 (available - headerSize)

/-- What is missed where a record ought to be. Nothing is if the cut is in front of it. -/
def missed (cut : Nat) (record : Record) : Option FormatError :=
  if record.offset < cut then some (record.severed cut) else none

variable {cut : Nat} {record : Record} {records : List Record}

theorem whole_cons_of_le (h : record.stop ≤ cut) :
    whole cut (record :: records) = record :: whole cut records :=
  List.filter_cons_of_pos (decide_eq_true h)

theorem whole_eq_nil (h : ∀ record ∈ records, cut < record.stop) : whole cut records = [] :=
  List.filter_eq_nil_iff.2 fun record hrecord => by
    rw [decide_eq_true_eq]
    exact Nat.not_le.2 (h record hrecord)

end Record

namespace Reader

variable {r r' : Reader} {record : Record} {cut : Nat}

/-- The reader, where only the first `cut` bytes of its stream are there. -/
def cutAt (cut : Nat) (r : Reader) : Reader := { r with stream := r.stream.extract 0 cut }

/-! ## One item -/

/-- **A record in front of the cut is read as before.** -/
theorem next_cutAt (h : r.next = (some (.ok record), r')) (hcut : record.stop ≤ cut) :
    (r.cutAt cut).next = (some (.ok record), r'.cutAt cut) := by
  obtain ⟨hrecord, hfailed, -, rfl⟩ := record_of_next h
  obtain ⟨hindex, hoffset, hpayload, hseg⟩ := segment_of_record hrecord
  rw [Record.stop, hoffset] at hcut
  rw [next_of_segment (r := r.cutAt cut) hfailed hpayload (hseg.extract hcut)]
  simp only [cutAt, ← hindex, ← hoffset]

theorem record_cutAt_of_lt (h : r.record = .ok record) (hoffset : r.offset < cut)
    (hstop : cut < record.stop) : (r.cutAt cut).record = .error (record.severed cut) := by
  obtain ⟨-, hplace, hpayload, hseg⟩ := segment_of_record h
  obtain ⟨hlength, hroom, -⟩ := header_of_segment hpayload.lt_word hseg
  have hpos := hpayload.pos
  have hmax := hpayload.le_max
  rw [Record.stop, Record.encodedLength, hplace] at hstop
  have hsize : (r.stream.extract 0 cut).size = cut := by
    rw [ByteArray.size_extract]
    omega
  unfold Reader.record cutAt Record.severed
  simp only [hsize, hplace]
  split
  · rfl
  · next hlong =>
    -- The header is whole, so it still states the size of the whole payload.
    have hword : word32 (r.stream.extract 0 cut) r.offset = word32 r.stream r.offset := by
      rw [word32_extract (by unfold headerSize at hlong; omega), Nat.zero_add]
    have hvalue : record.payload.size.toUInt32 = word32 r.stream r.offset := by
      rw [← hlength]
      exact UInt32.ofNat_toNat
    have hzero : word32 r.stream r.offset ≠ 0 := by
      intro h0
      rw [h0, UInt32.toNat_zero] at hlength
      omega
    rw [hword, if_neg (not_or.2 ⟨hzero, by omega⟩), if_pos (by omega), hvalue]

/-- **A record that is cut is missed.** -/
theorem next_cutAt_of_lt (h : r.next = (some (.ok record), r')) (hoffset : r.offset < cut)
    (hstop : cut < record.stop) :
    (r.cutAt cut).next =
      (some (.error (record.severed cut)), { r.cutAt cut with failed := true }) := by
  obtain ⟨hrecord, hfailed, hlt, -⟩ := record_of_next h
  have hmore : ¬ ((r.cutAt cut).failed = true ∨
      (r.cutAt cut).stream.size ≤ (r.cutAt cut).offset) := by
    simp only [cutAt, hfailed, Bool.false_eq_true, false_or, ByteArray.size_extract]
    omega
  rw [next, if_neg hmore, record_cutAt_of_lt hrecord hoffset hstop]

theorem next_cutAt_of_le (h : cut ≤ r.offset) : (r.cutAt cut).next = (none, r.cutAt cut) := by
  refine next_of_end ?_
  simp only [cutAt, ByteArray.size_extract]
  omega

/-! ## Walks -/

theorem offset_le_of_mem_walk (h : record ∈ r.walk.records.toList) : r.offset ≤ record.offset := by
  induction r using next_induction with
  | ended r r' hnext =>
    rw [walk_of_end hnext] at h
    cases h
  | violated r r' e hnext =>
    rw [walk_of_error hnext] at h
    cases h
  | read r r' first hnext ih =>
    obtain ⟨hrecord, -, -, rfl⟩ := record_of_next hnext
    rw [toList_records_of_record hnext] at h
    obtain rfl | h := List.mem_cons.1 h
    · exact Nat.le_of_eq (segment_of_record hrecord).2.1.symm
    · exact Nat.le_of_add_right_le (ih h)

/-- Of the records ahead of the reader, the first `count` are those in front of the cut. Where the
stream is cut, a reader finds these and misses the next one, if the cut goes through it. -/
structure CutAfter (r : Reader) (cut count : Nat) : Prop where
  whole_eq : Record.whole cut r.walk.records.toList = r.walk.records.toList.take count
  le_cut : r.offset + Record.totalLength (r.walk.records.toList.take count) ≤ cut
  records_eq : (r.cutAt cut).walk.records.toList = r.walk.records.toList.take count
  violation_eq : (r.cutAt cut).walk.violation =
    r.walk.records.toList[count]?.bind (Record.missed cut)

theorem CutAfter.cons {count : Nat} (h : r.next = (some (.ok record), r'))
    (hstop : record.stop ≤ cut) (hrest : r'.CutAfter cut count) : r.CutAfter cut (count + 1) := by
  have hnext := next_cutAt h hstop
  have hrecords := toList_records_of_record h
  obtain ⟨-, -, -, rfl⟩ := record_of_next h
  constructor
  · rw [hrecords, Record.whole_cons_of_le hstop, hrest.whole_eq, List.take_succ_cons]
  · rw [hrecords, List.take_succ_cons, Record.totalLength, ← Nat.add_assoc]
    exact hrest.le_cut
  · rw [hrecords, toList_records_of_record hnext, hrest.records_eq, List.take_succ_cons]
  · rw [hrecords, walk_of_record hnext, List.getElem?_cons_succ]
    exact hrest.violation_eq

theorem cutAfter_zero (h : r.next = (some (.ok record), r')) (hoffset : r.offset ≤ cut)
    (hstop : cut < record.stop) : r.CutAfter cut 0 := by
  obtain ⟨hrecord, -, -, hr'⟩ := record_of_next h
  have hplace := (segment_of_record hrecord).2.1
  have hbehind : r'.offset = record.stop := by rw [hr', Record.stop, hplace]
  have hfirst : r.walk.records.toList[0]? = some record := by
    rw [toList_records_of_record h, List.getElem?_cons_zero]
  have hwalk : (r.cutAt cut).walk.records.toList = [] ∧
      (r.cutAt cut).walk.violation = record.missed cut := by
    by_cases hlt : r.offset < cut
    · rw [walk_of_error (next_cutAt_of_lt h hlt hstop), Record.missed, hplace, if_pos hlt]
      exact ⟨rfl, rfl⟩
    · rw [walk_of_end (next_cutAt_of_le (Nat.not_lt.1 hlt)), Record.missed, hplace, if_neg hlt]
      exact ⟨rfl, rfl⟩
  refine ⟨?_, hoffset, hwalk.1, ?_⟩
  · refine Record.whole_eq_nil fun found hfound => ?_
    rw [toList_records_of_record h] at hfound
    obtain rfl | hfound := List.mem_cons.1 hfound
    · exact hstop
    · have hle := offset_le_of_mem_walk hfound
      rw [hbehind] at hle
      exact Nat.lt_of_lt_of_le hstop (Nat.le_add_right_of_le hle)
  · rw [hfirst]
    exact hwalk.2

theorem cutAfter_of_nil (hwalk : r.walk.records.toList = []) (hoffset : r.offset = cut) :
    r.CutAfter cut 0 := by
  have hend := walk_of_end (next_cutAt_of_le (Nat.le_of_eq hoffset.symm))
  refine ⟨?_, Nat.le_of_eq hoffset, ?_, ?_⟩
  · rw [hwalk]
    rfl
  · rw [hend]
    rfl
  · rw [hend, hwalk]
    rfl

/-- **A cut through a walk.** The induction is on the walk over the whole stream. -/
theorem cutAfter_walk (hoffset : r.offset ≤ cut)
    (hcut : cut ≤ r.offset + Record.totalLength r.walk.records.toList) :
    r.CutAfter cut (Record.whole cut r.walk.records.toList).length := by
  induction r using next_induction with
  | ended r r' h =>
    have hwalk : r.walk.records.toList = [] := by rw [walk_of_end h]
    rw [hwalk] at hcut ⊢
    exact cutAfter_of_nil hwalk (Nat.le_antisymm hoffset hcut)
  | violated r r' e h =>
    have hwalk : r.walk.records.toList = [] := by rw [walk_of_error h]
    rw [hwalk] at hcut ⊢
    exact cutAfter_of_nil hwalk (Nat.le_antisymm hoffset hcut)
  | read r r' record h ih =>
    obtain ⟨hrecord, -, -, hr'⟩ := record_of_next h
    have hbehind : r'.offset = r.offset + record.encodedLength := by rw [hr']
    have hstop_eq : record.stop = r'.offset := by
      rw [hbehind, Record.stop, (segment_of_record hrecord).2.1]
    by_cases hstop : record.stop ≤ cut
    · rw [toList_records_of_record h, Record.totalLength, ← Nat.add_assoc, ← hbehind] at hcut
      rw [toList_records_of_record h, Record.whole_cons_of_le hstop]
      exact .cons h hstop (ih (hstop_eq ▸ hstop) hcut)
    · have hzero := cutAfter_zero h hoffset (Nat.not_le.1 hstop)
      rw [hzero.whole_eq]
      exact hzero

section Cut

variable {count : Nat} {violation : Option FormatError}

theorem CutAfter.violation_of_eq (h : r.CutAfter cut count)
    (hframed : r.Framed r.walk.records.toList violation)
    (hcut : cut = r.offset + Record.totalLength (r.walk.records.toList.take count)) :
    (r.cutAt cut).walk.violation = none := by
  rw [h.violation_eq]
  cases hrecord : r.walk.records.toList[count]? with
  | none => rfl
  | some record =>
    have hplace := (hframed.record count record hrecord).2.1
    show record.missed cut = none
    rw [Record.missed, if_neg (by omega)]

/-- **Any other cut is noticed**, and located behind the last record in front of it. -/
theorem CutAfter.violation_of_lt (h : r.CutAfter cut count)
    (hframed : r.Framed r.walk.records.toList violation)
    (hcut : cut ≤ r.offset + Record.totalLength r.walk.records.toList)
    (hlt : r.offset + Record.totalLength (r.walk.records.toList.take count) < cut) :
    ∃ record, r.walk.records.toList[count]? = some record ∧
      record.offset = r.offset + Record.totalLength (r.walk.records.toList.take count) ∧
      record.payload.size < UInt32.size ∧
      (r.cutAt cut).walk.violation = some (record.severed cut) := by
  cases hrecord : r.walk.records.toList[count]? with
  | none =>
    rw [List.take_of_length_le (List.getElem?_eq_none_iff.1 hrecord)] at hlt
    omega
  | some record =>
    obtain ⟨-, hplace, hpayload⟩ := hframed.record count record hrecord
    refine ⟨record, rfl, hplace, hpayload.lt_word, ?_⟩
    rw [h.violation_eq, hrecord]
    show record.missed cut = _
    rw [Record.missed, hplace, if_pos hlt]

end Cut

/-- What is found in the first `cut` bytes of a stream with these records. -/
structure FoundInFront (records : List Record) (cut : Nat) (front : Walk) : Prop where
  whole_eq : Record.whole cut records = records.take (Record.whole cut records).length
  le_cut : Record.totalLength (Record.whole cut records) ≤ cut
  records_eq : front.records.toList = records.take (Record.whole cut records).length
  unnoticed : cut = Record.totalLength (Record.whole cut records) → front.violation = none
  noticed : Record.totalLength (Record.whole cut records) < cut →
    ∃ record, records[(Record.whole cut records).length]? = some record ∧
      record.offset = Record.totalLength (Record.whole cut records) ∧
      record.payload.size < UInt32.size ∧ front.violation = some (record.severed cut)

/-- **Every cut through a stream of records.** -/
theorem foundInFront_walk {stream : ByteArray} {max : Nat}
    (hviolation : (ofStream stream max).walk.violation = none) (hcut : cut ≤ stream.size) :
    FoundInFront (ofStream stream max).walk.records.toList cut
      (ofStream (stream.extract 0 cut) max).walk := by
  have hframed := framed_walk (ofStream stream max) rfl (Nat.zero_le _)
  have hsize := hframed.ended hviolation
  have hall : cut ≤ (ofStream stream max).offset + Record.totalLength _ := hsize ▸ hcut
  have hafter := cutAfter_walk (Nat.zero_le cut) hall
  have hle := hafter.le_cut
  have hunnoticed := hafter.violation_of_eq hframed
  have hnoticed := hafter.violation_of_lt hframed hall
  have hzero : (ofStream stream max).offset = 0 := rfl
  simp only [← hafter.whole_eq, hzero, Nat.zero_add] at hle hunnoticed hnoticed
  exact ⟨hafter.whole_eq, hle, hafter.records_eq, hunnoticed, hnoticed⟩

end Reader

end BlockStream
