import BlockStream.Record.Basic

/-!
# Reading records

A reader walks a stream record by record. It reports the first place where the bytes are no
record, and nothing after that.
-/

namespace BlockStream

structure Reader where
  stream : ByteArray
  /-- The longest payload that a record may state. -/
  maxLength : Nat
  /-- The position of the next record. -/
  offset : Nat
  /-- The number of records read. -/
  index : Nat
  /-- A violation was found before. -/
  failed : Bool

namespace Reader

def ofStream (stream : ByteArray) (maxLength : Nat) : Reader := ⟨stream, maxLength, 0, 0, false⟩

def record (r : Reader) : Except FormatError Record :=
  let available := r.stream.size - r.offset
  if available < headerSize then .error (.truncatedHeader r.offset available)
  else
    let length := word32 r.stream r.offset
    if length = 0 ∨ r.maxLength < length.toNat then
      .error (.invalidLength r.offset length r.maxLength)
    else if available - headerSize < length.toNat then
      .error (.truncatedPayload r.offset length (available - headerSize))
    else
      let start := r.offset + headerSize
      .ok ⟨r.index, r.offset, r.stream.extract start (start + length.toNat)⟩

/-- The next item of the stream, none at its end or after a violation, and the reader after it. -/
def next (r : Reader) : Option (Except FormatError Record) × Reader :=
  if r.failed ∨ r.stream.size ≤ r.offset then (none, r)
  else
    match r.record with
    | .ok record =>
      (some (.ok record),
        { r with offset := r.offset + record.encodedLength, index := r.index + 1 })
    | .error e => (some (.error e), { r with failed := true })

def remaining (r : Reader) : Nat := if r.failed then 0 else r.stream.size - r.offset

theorem remaining_lt_of_next {r r' : Reader} {item : Except FormatError Record}
    (h : r.next = (some item, r')) : r'.remaining < r.remaining := by
  unfold next at h
  split at h
  · simp at h
  · next hlt =>
    simp only [not_or, Bool.not_eq_true, Nat.not_le] at hlt
    split at h
    all_goals
      simp only [Prod.mk.injEq, Option.some.injEq] at h
      obtain ⟨-, rfl⟩ := h
      simp only [remaining, hlt.1, Bool.false_eq_true, if_false, if_true, Record.encodedLength,
        headerSize]
      omega

/-- What a reader finds on its way to the end. -/
structure Walk where
  records : Array Record
  violation : Option FormatError
  /-- The reader at its end. -/
  rest : Reader

/-- Read to the end, and add the records to those `seen` before. -/
def walkFrom (r : Reader) (seen : Array Record) : Walk :=
  match h : r.next with
  | (none, r') => ⟨seen, none, r'⟩
  | (some (.error e), r') => ⟨seen, some e, r'⟩
  | (some (.ok record), r') =>
    have := remaining_lt_of_next h
    r'.walkFrom (seen.push record)
termination_by r.remaining

def walk (r : Reader) : Walk := r.walkFrom #[]

end Reader

end BlockStream
