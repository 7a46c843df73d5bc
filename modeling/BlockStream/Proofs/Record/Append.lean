import BlockStream.Proofs.Bytes.Append
import BlockStream.Proofs.Record.Parsing

/-! # Readers of concatenated streams -/

namespace BlockStream

def FormatError.shift (bytes : Nat) : FormatError → FormatError
  | .invalidLength offset length max => .invalidLength (offset + bytes) length max
  | .truncatedHeader offset available => .truncatedHeader (offset + bytes) available
  | .truncatedPayload offset length available => .truncatedPayload (offset + bytes) length available

/-- The same record, `bytes` further behind and with `count` more records before it. -/
def Record.shift (bytes count : Nat) (record : Record) : Record :=
  ⟨record.index + count, record.offset + bytes, record.payload⟩

namespace Reader

variable {r r' : Reader} {record : Record} {a b : ByteArray} {count max : Nat}

/-! ## One item -/

/-- The reader, where the bytes `b` follow its stream. -/
def before (r : Reader) (b : ByteArray) : Reader := { r with stream := r.stream ++ b }

/-- The reader, where the bytes `a` with `count` records precede its stream. -/
def behind (a : ByteArray) (count : Nat) (r : Reader) : Reader :=
  ⟨a ++ r.stream, r.maxLength, r.offset + a.size, r.index + count, r.failed⟩

/-- **What follows a record makes no difference to it.** -/
theorem next_before (h : r.next = (some (.ok record), r')) :
    (r.before b).next = (some (.ok record), r'.before b) := by
  obtain ⟨hrecord, hfailed, -, rfl⟩ := record_of_next h
  obtain ⟨hindex, hoffset, hpayload, hseg⟩ := segment_of_record hrecord
  have hnext := next_of_segment (r := r.before b) hfailed hpayload (hseg.append_right b)
  rw [hnext]
  simp only [before, ← hindex, ← hoffset]

theorem record_behind (a : ByteArray) (count : Nat) (r : Reader) :
    (r.behind a count).record =
      (r.record.map (Record.shift a.size count)).mapError (FormatError.shift a.size) := by
  have havailable : (a ++ r.stream).size - (r.offset + a.size) = r.stream.size - r.offset := by
    rw [ByteArray.size_append]
    omega
  have hextract (length : Nat) :
      (a ++ r.stream).extract (r.offset + a.size + headerSize)
          (r.offset + a.size + headerSize + length) =
        r.stream.extract (r.offset + headerSize) (r.offset + headerSize + length) := by
    rw [← extract_append_right a r.stream (r.offset + headerSize)]
    congr 1 <;> omega
  unfold record behind
  simp only [havailable, hextract, word32_append_right]
  split
  · rfl
  · split
    · rfl
    · split <;> rfl

/-- **What precedes a stream only moves what is read.** -/
theorem next_behind (a : ByteArray) (count : Nat) (r : Reader) :
    (r.behind a count).next =
      (r.next.1.map fun item =>
          (item.map (Record.shift a.size count)).mapError (FormatError.shift a.size),
        r.next.2.behind a count) := by
  have hend : (a ++ r.stream).size ≤ r.offset + a.size ↔ r.stream.size ≤ r.offset := by
    rw [ByteArray.size_append]
    omega
  rw [next, next, record_behind]
  simp only [behind, hend]
  split
  · rfl
  · cases r.record with
    | error e => rfl
    | ok record =>
      refine Prod.ext rfl ?_
      show Reader.mk _ _ (r.offset + a.size + record.encodedLength) (r.index + count + 1) _ =
        Reader.mk _ _ (r.offset + record.encodedLength + a.size) (r.index + 1 + count) _
      rw [Nat.add_right_comm, Nat.add_right_comm r.index]

/-! ## Walks -/

theorem walk_behind (a : ByteArray) (count : Nat) (r : Reader) :
    (r.behind a count).walk.records.toList = r.walk.records.toList.map (Record.shift a.size count) ∧
      (r.behind a count).walk.violation = r.walk.violation.map (FormatError.shift a.size) := by
  induction r using next_induction with
  | ended r r' h =>
    have hbehind := next_behind a count r
    rw [h] at hbehind
    rw [walk_of_end h, walk_of_end hbehind]
    exact ⟨rfl, rfl⟩
  | violated r r' e h =>
    have hbehind := next_behind a count r
    rw [h] at hbehind
    rw [walk_of_error h, walk_of_error hbehind]
    exact ⟨rfl, rfl⟩
  | read r r' record h ih =>
    have hbehind := next_behind a count r
    rw [h] at hbehind
    rw [toList_records_of_record h, toList_records_of_record hbehind, walk_of_record h,
      walk_of_record hbehind, ih.1]
    exact ⟨rfl, ih.2⟩

theorem before_of_end (hfailed : r.failed = false) (hend : r.offset = r.stream.size) :
    r.before b = (ofStream b r.maxLength).behind r.stream r.index := by
  simp [before, behind, ofStream, hfailed, hend]

/-- **A walk that finds no violation is followed by the walk over the bytes that follow.** -/
theorem walk_before (hfailed : r.failed = false) (hoffset : r.offset ≤ r.stream.size)
    (hviolation : r.walk.violation = none) (b : ByteArray) :
    let rest := (ofStream b r.maxLength).walk
    (r.before b).walk.records.toList = r.walk.records.toList ++ rest.records.toList.map
        (Record.shift r.stream.size (r.index + r.walk.records.size)) ∧
      (r.before b).walk.violation = rest.violation.map (FormatError.shift r.stream.size) := by
  induction r using next_induction with
  | ended r r' h =>
    have hend := size_le_of_next_none h hfailed
    rw [walk_of_end h, before_of_end hfailed (Nat.le_antisymm hoffset hend)]
    exact walk_behind ..
  | violated r r' e h =>
    rw [walk_of_error h] at hviolation
    cases hviolation
  | read r r' record h ih =>
    have hsize : r.walk.records.size = 1 + r'.walk.records.size := by
      rw [walk_of_record h, Array.size_append]
      rfl
    rw [walk_of_record h] at hviolation
    obtain ⟨hrecord, -, -, rfl⟩ := record_of_next h
    have hstop := (segment_of_record hrecord).2.2.2.stop_le hoffset
    have hrest := ih hfailed hstop hviolation
    rw [toList_records_of_record h, toList_records_of_record (next_before h), hrest.1,
      walk_of_record (next_before h), hsize, ← Nat.add_assoc]
    exact ⟨rfl, hrest.2⟩

theorem walk_append (hviolation : (ofStream a max).walk.violation = none) (b : ByteArray) :
    (ofStream (a ++ b) max).walk.records.toList = (ofStream a max).walk.records.toList ++
        (ofStream b max).walk.records.toList.map
          (Record.shift a.size (ofStream a max).walk.records.size) ∧
      (ofStream (a ++ b) max).walk.violation =
        (ofStream b max).walk.violation.map (FormatError.shift a.size) := by
  have h := walk_before (r := ofStream a max) rfl (Nat.zero_le _) hviolation b
  simpa [ofStream, before] using h

end Reader

end BlockStream
