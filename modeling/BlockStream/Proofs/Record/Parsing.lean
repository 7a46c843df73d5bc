import BlockStream.Proofs.Record.Framing
import BlockStream.Proofs.Record.Walk

/-!
# What a reader finds

Asked again and again, a reader hands out the records of its stream and then, if something is left
that is no record, one violation. Nothing follows (**`Reader.finds_framing`**).
-/

namespace BlockStream

def Record.totalLength : List Record → Nat
  | [] => 0
  | record :: rest => record.encodedLength + totalLength rest

/-- What is wrong with `rest`, the bytes of a stream from `offset` on, where payloads have up to
`max` bytes: no whole header; else a length that is not allowed; else too few bytes after it. -/
structure FormatError.Describes (e : FormatError) (max offset : Nat) (rest : List UInt8) :
    Prop where
  header_iff : e = .truncatedHeader offset rest.length ↔ rest.length < headerSize
  length_iff : headerSize ≤ rest.length → ∃ length : UInt32,
    littleEndian headerSize length.toNat = rest.take headerSize ∧
      (e = .invalidLength offset length max ↔ length = 0 ∨ max < length.toNat) ∧
      (¬ (length = 0 ∨ max < length.toNat) →
        e = .truncatedPayload offset length (rest.length - headerSize) ∧
          rest.length - headerSize < length.toNat)

namespace Reader

variable {r r' : Reader} {e : FormatError} {record : Record} {records : List Record}
  {violation : Option FormatError} {payloads : List ByteArray} {stream : ByteArray} {max : Nat}

/-! ## One record -/

theorem segment_header (h : r.offset + headerSize ≤ r.stream.size) :
    Segment r.stream r.offset (r.offset + headerSize)
      (littleEndian headerSize (word32 r.stream r.offset).toNat) :=
  (segment_littleEndian_iff (UInt32.toNat_lt _)).2 ⟨.inr h, toNat_word32 ..⟩

/-- **A record that is read stands where the reader stood.** -/
theorem segment_of_record (h : r.record = .ok record) :
    record.index = r.index ∧ record.offset = r.offset ∧ Payload r.maxLength record.payload ∧
      Segment r.stream r.offset (r.offset + record.encodedLength) (recordBytes record.payload) := by
  revert h
  fun_cases Reader.record r with
  | case4 available hheader length hlength hroom start =>
    intro h
    cases h
    have hlt := length.toNat_lt
    have hpos : length.toNat ≠ 0 := fun h0 => hlength (.inl (UInt32.toNat_inj.1 h0))
    have hstart : start ≤ r.stream.size := by omega
    have hsize : (r.stream.extract start (start + length.toNat)).size = length.toNat := by
      rw [ByteArray.size_extract]
      omega
    refine ⟨rfl, rfl, ?_, segment_append_iff.2 ⟨start, ?_, ?_⟩⟩
    · refine ⟨?_, ?_, ?_⟩ <;> simp only [hsize] <;> omega
    · rw [hsize]
      exact segment_header hstart
    · rw [Record.encodedLength, hsize, toList_extract, ← Nat.add_assoc, Nat.add_sub_cancel_left]
      exact segment_take (by omega)
  | _ =>
    intro h
    cases h

/-- **A violation says what is wrong.** -/
theorem describes_of_record (h : r.record = .error e) :
    e.Describes r.maxLength r.offset (bytesFrom r.stream r.offset) := by
  have hrest := length_bytesFrom r.stream r.offset
  have hheader (h : ¬ r.stream.size - r.offset < headerSize) :
      littleEndian headerSize (word32 r.stream r.offset).toNat =
        (bytesFrom r.stream r.offset).take headerSize := by
    have hseg := segment_header (r := r) (by unfold headerSize at *; omega)
    simpa using hseg.eq_take
  revert h
  fun_cases Reader.record r with
  | case1 available hshort =>
    intro h
    cases h
    refine ⟨by simp [hrest, hshort, available], fun hle => ?_⟩
    omega
  | case2 available hlong length hlength =>
    intro h
    cases h
    refine ⟨by simp; omega, fun _ => ⟨length, hheader hlong, by simp [hlength], ?_⟩⟩
    exact fun hvalid => absurd hlength hvalid
  | case3 available hlong length hlength hroom =>
    intro h
    cases h
    refine ⟨by simp; omega, fun _ => ⟨length, hheader hlong, by simp [hlength], fun _ => ?_⟩⟩
    exact ⟨by rw [hrest], by rwa [hrest]⟩
  | case4 =>
    intro h
    cases h

/-! ## Items -/

def after (r : Reader) : (n : Nat) → Reader
  | 0 => r
  | n + 1 => r.next.2.after n

/-- Item number `n` of those that a reader hands out one after the other. -/
def item (r : Reader) (n : Nat) : Option (Except FormatError Record) := (r.after n).next.1

/-- One after the other, the reader hands out the records, then the violation if there is one, and
then nothing, however often it is asked. -/
def Finds (r : Reader) (records : List Record) (violation : Option FormatError) : Prop :=
  ∀ n, r.item n = (records.map Except.ok ++ (violation.map Except.error).toList)[n]?

theorem eq_of_next_none (h : r.next = (none, r')) : r' = r := by
  revert h
  fun_cases next r with
  | case1 =>
    intro h
    cases h
    rfl
  | _ =>
    intro h
    cases h

theorem next_of_failed (h : r.failed = true) : r.next = (none, r) := if_pos (.inl h)

theorem failed_of_next_error (h : r.next = (some (.error e), r')) : r'.failed = true := by
  revert h
  fun_cases next r with
  | case3 =>
    intro h
    cases h
    rfl
  | _ =>
    intro h
    cases h

theorem item_of_next_none (h : r.next = (none, r')) (n : Nat) : r.item n = none := by
  obtain rfl := eq_of_next_none h
  induction n with
  | zero => simp [item, after, h]
  | succ n ih => simpa [item, after, h] using ih

theorem item_zero {item : Option (Except FormatError Record)} (h : r.next = (item, r')) :
    r.item 0 = item := by
  simp [Reader.item, after, h]

theorem item_succ {item : Option (Except FormatError Record)} (h : r.next = (item, r')) (n : Nat) :
    r.item (n + 1) = r'.item n := by
  simp [Reader.item, after, h]

/-- **The items are those of the walk.** -/
theorem finds_walk (r : Reader) : r.Finds r.walk.records.toList r.walk.violation := by
  induction r using next_induction with
  | ended r r' h =>
    intro n
    simp [walk_of_end h, item_of_next_none h]
  | violated r r' e h =>
    rintro (_ | n)
    · simp [walk_of_error h, item_zero h]
    · simp [walk_of_error h, item_succ h,
        item_of_next_none (next_of_failed (failed_of_next_error h))]
  | read r r' record h ih =>
    rintro (_ | n)
    · simp [walk_of_record h, item_zero h]
    · simpa [walk_of_record h, item_succ h] using ih n

theorem Finds.unique {records' : List Record} (h : r.Finds records none)
    (h' : r.Finds records' none) : records = records' := by
  have heq : (records.map .ok : List (Except FormatError Record)) = records'.map .ok := by
    refine List.ext_getElem? fun n => ?_
    simpa using (h n).symm.trans (h' n)
  exact (List.map_inj_right fun _ _ => Except.ok.inj).1 heq

/-! ## The bytes of a walk -/

/-- The records stand one after the other in front of the reader, and there they end because the
stream ends, or because of the violation. -/
structure Framed (r : Reader) (records : List Record) (violation : Option FormatError) : Prop where
  record : ∀ i record, records[i]? = some record → record.index = r.index + i ∧
    record.offset = r.offset + Record.totalLength (records.take i) ∧
      Payload r.maxLength record.payload
  segment : Segment r.stream r.offset (r.offset + Record.totalLength records)
    (records.flatMap fun record => recordBytes record.payload)
  ended : violation = none → r.offset + Record.totalLength records = r.stream.size
  violated : ∀ e, violation = some e → r.offset + Record.totalLength records < r.stream.size ∧
    e.Describes r.maxLength (r.offset + Record.totalLength records)
      (bytesFrom r.stream (r.offset + Record.totalLength records))

theorem record_of_next (h : r.next = (some (.ok record), r')) :
    r.record = .ok record ∧ r.failed = false ∧ r.offset < r.stream.size ∧
      r' = { r with offset := r.offset + record.encodedLength, index := r.index + 1 } := by
  revert h
  fun_cases next r with
  | case2 hmore record hrecord =>
    intro h
    cases h
    simp only [not_or, Bool.not_eq_true, Nat.not_le] at hmore
    exact ⟨hrecord, hmore.1, hmore.2, rfl⟩
  | _ =>
    intro h
    cases h

theorem error_of_next (h : r.next = (some (.error e), r')) :
    r.record = .error e ∧ r.offset < r.stream.size := by
  revert h
  fun_cases next r with
  | case3 hmore e he =>
    intro h
    cases h
    simp only [not_or, Nat.not_le] at hmore
    exact ⟨he, hmore.2⟩
  | _ =>
    intro h
    cases h

theorem size_le_of_next_none (h : r.next = (none, r')) (hfailed : r.failed = false) :
    r.stream.size ≤ r.offset := by
  revert h
  fun_cases next r with
  | case1 hend => exact fun _ => hend.resolve_left (by simp [hfailed])
  | _ =>
    intro h
    cases h

theorem Framed.cons (h : r.next = (some (.ok record), r')) (hrest : r'.Framed records violation) :
    r.Framed (record :: records) violation := by
  obtain ⟨hrecord, -, -, rfl⟩ := record_of_next h
  obtain ⟨hindex, hoffset, hpayload, hseg⟩ := segment_of_record hrecord
  obtain ⟨hrecords, hsegs, hended, hviolated⟩ := hrest
  simp only [Nat.add_assoc] at hrecords hsegs hended hviolated
  refine ⟨?_, ?_, hended, hviolated⟩
  · rintro (_ | i) found hfound
    · cases hfound
      exact ⟨hindex, hoffset, hpayload⟩
    · rcases hrecords i found hfound with ⟨hi, ho, hp⟩
      exact ⟨by omega, ho, hp⟩
  · exact segment_append_iff.2 ⟨_, hseg, hsegs⟩

/-- **A walk is framed.** -/
theorem framed_walk (r : Reader) (hfailed : r.failed = false) (hoffset : r.offset ≤ r.stream.size) :
    r.Framed r.walk.records.toList r.walk.violation := by
  induction r using next_induction with
  | ended r r' h =>
    rw [walk_of_end h]
    have hend := size_le_of_next_none h hfailed
    exact ⟨by simp, by simp [Record.totalLength, segment_nil_iff], fun _ => by
      simp [Record.totalLength]; omega, nofun⟩
  | violated r r' e h =>
    rw [walk_of_error h]
    have herror := error_of_next h
    refine ⟨by simp, by simp [Record.totalLength, segment_nil_iff], nofun, ?_⟩
    intro e' he'
    cases he'
    exact ⟨herror.2, describes_of_record herror.1⟩
  | read r r' record h ih =>
    rw [walk_of_record h, Array.toList_append]
    obtain ⟨hrecord, -, -, rfl⟩ := record_of_next h
    have hstop := (segment_of_record hrecord).2.2.2.stop_le hoffset
    exact .cons h (ih hfailed hstop)

theorem length_flatMap_recordBytes (records : List Record) :
    (records.flatMap fun record => recordBytes record.payload).length =
      Record.totalLength records := by
  induction records with
  | nil => rfl
  | cons record records ih => simp [ih, Record.totalLength, Record.encodedLength]

theorem Framed.header {i : Nat} (h : r.Framed records violation)
    (hrecord : records[i]? = some record) :
    (word32 r.stream record.offset).toNat = record.payload.size := by
  obtain ⟨-, hoffset, hpayload⟩ := h.record i record hrecord
  obtain ⟨hi, rfl⟩ := List.getElem?_eq_some_iff.1 hrecord
  have hseg := h.segment
  rw [← List.take_append_drop i records, List.drop_eq_getElem_cons hi, List.flatMap_append,
    List.flatMap_cons] at hseg
  obtain ⟨start, hbefore, hrest⟩ := segment_append_iff.1 hseg
  obtain ⟨stop, hrecord, -⟩ := segment_append_iff.1 hrest
  obtain rfl : start = records[i].offset := by
    rw [hbefore.1, length_flatMap_recordBytes, hoffset]
  exact (header_of_segment (r := { r with offset := records[i].offset }) hpayload.lt_word hrecord).1

/-- **The walk over written records.** -/
theorem walk_of_payloads (hfailed : r.failed = false)
    (hpayloads : ∀ payload ∈ payloads, Payload r.maxLength payload)
    (hseg : Segment r.stream r.offset r.stream.size (payloads.flatMap recordBytes)) :
    r.walk.violation = none ∧ r.walk.records.toList.map Record.payload = payloads := by
  induction payloads generalizing r with
  | nil =>
    have hend := segment_nil_iff.1 hseg
    simp [walk_of_end (next_of_end (Nat.le_of_eq hend))]
  | cons payload payloads ih =>
    rcases segment_append_iff.1 hseg with ⟨mid, hfirst, hrest⟩
    have hnext := next_of_segment hfailed (hpayloads _ List.mem_cons_self) hfirst
    have hwalk := ih (r := { r with offset := mid, index := r.index + 1 }) hfailed
      (fun p hp => hpayloads p (List.mem_cons_of_mem _ hp)) hrest
    simp [walk_of_record hnext, hwalk]

theorem toList_foldl_pushRecord (payloads : List ByteArray) (out : ByteArray) :
    (payloads.foldl pushRecord out).data.toList =
      out.data.toList ++ payloads.flatMap recordBytes := by
  induction payloads generalizing out with
  | nil => simp
  | cons payload payloads ih => simp [ih, toList_pushRecord_eq]

theorem Framed.foldl_pushRecord (h : (ofStream stream max).Framed records violation) :
    (records.map Record.payload).foldl pushRecord .empty =
      stream.extract 0 (Record.totalLength records) := by
  apply ext_of_toList
  have hseg := h.segment
  simp only [ofStream, Nat.zero_add] at hseg
  rw [toList_foldl_pushRecord, toList_extract, ← hseg.eq_take, List.flatMap_map]
  rfl

/-- **Reading records and writing them undo each other.** A stream is read as records, numbered and
placed one after the other, up to its end or up to a violation that says what is wrong there; what
was read is written back as the bytes that it was. And records that were written are read back. -/
theorem finds_framing (max : Nat) :
    (∀ stream, ∃ records violation, (ofStream stream max).Finds records violation ∧
      (∀ i record, records[i]? = some record → record.index = i ∧
        record.offset = Record.totalLength (records.take i) ∧ Payload max record.payload) ∧
      let stop := Record.totalLength records
      let written := (records.map Record.payload).foldl pushRecord ByteArray.empty
      match violation with
      | none => written = stream
      | some e => written = stream.extract 0 stop ∧ stop < stream.size ∧
        e.Describes max stop (bytesFrom stream stop)) ∧
    ∀ payloads : List ByteArray, (∀ payload ∈ payloads, Payload max payload) →
      ∃ records, (ofStream (payloads.foldl pushRecord .empty) max).Finds records none ∧
        records.map Record.payload = payloads := by
  constructor
  · intro stream
    have hframed := framed_walk (ofStream stream max) rfl (Nat.zero_le _)
    have hwritten := hframed.foldl_pushRecord
    refine ⟨_, _, finds_walk _, ?_, ?_⟩
    · simpa [ofStream] using hframed.record
    · cases hviolation : (ofStream stream max).walk.violation with
      | none =>
        have hend := hframed.ended hviolation
        rw [ofStream, Nat.zero_add] at hend
        exact hwritten.trans (by rw [ofStream, hend, ByteArray.extract_zero_size])
      | some e =>
        have hend := hframed.violated e hviolation
        simp only [ofStream, Nat.zero_add] at hend
        exact ⟨hwritten, hend⟩
  · intro payloads hpayloads
    have hbytes := toList_foldl_pushRecord payloads .empty
    have hwalk := walk_of_payloads (r := ofStream (payloads.foldl pushRecord .empty) max) rfl
      hpayloads (segment_zero_iff.2 hbytes.symm)
    exact ⟨_, hwalk.1 ▸ finds_walk _, hwalk.2⟩

theorem finds_framing_two :
    let payloads : List ByteArray := [⟨#[97, 98, 99]⟩, ⟨#[100]⟩]
    (∀ payload ∈ payloads, Payload 3 payload) ∧
      ∃ records, (ofStream ⟨#[3, 0, 0, 0, 97, 98, 99, 1, 0, 0, 0, 100]⟩ 3).Finds records none ∧
        records.map Record.payload = payloads := by
  intro payloads
  have hpayloads : ∀ payload ∈ payloads, Payload 3 payload := by
    intro payload h
    simp only [payloads, List.mem_cons, List.not_mem_nil, or_false] at h
    rcases h with rfl | rfl <;> exact ⟨by decide, by decide, by decide⟩
  exact ⟨hpayloads, (finds_framing 3).2 payloads hpayloads⟩

end Reader

end BlockStream
