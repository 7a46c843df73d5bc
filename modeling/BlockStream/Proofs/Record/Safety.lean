import BlockStream.Bytes.Checked
import BlockStream.Proofs.Bytes.Words
import BlockStream.Proofs.Record.Walk

/-! # The reader stays inside its stream -/

namespace BlockStream

open Reader (Walk)

/-! ## The parts of a record -/

section Parts

variable {source : ByteArray} {offset n : Nat}

theorem size_rest (source : ByteArray) (offset : Nat) :
    (source.extract offset source.size).size = source.size - offset := by
  rw [ByteArray.size_extract, Nat.min_self]

theorem size_header (h : headerSize ≤ source.size - offset) :
    ((source.extract offset source.size).extract 0 headerSize).size = headerSize := by
  rw [ByteArray.size_extract, size_rest]
  omega

theorem word32_header (h : headerSize ≤ source.size - offset) :
    word32 ((source.extract offset source.size).extract 0 headerSize) 0 = word32 source offset := by
  unfold headerSize at *
  rw [word32_extract (by omega), word32_extract (by omega)]
  rfl

theorem size_body (source : ByteArray) (offset : Nat) :
    ((source.extract offset source.size).extract headerSize (source.size - offset)).size =
      source.size - offset - headerSize := by
  rw [ByteArray.size_extract, size_rest, Nat.min_self]

theorem extract_payload (h : headerSize ≤ source.size - offset)
    (hn : n ≤ source.size - offset - headerSize) :
    ((source.extract offset source.size).extract headerSize (source.size - offset)).extract 0 n =
      source.extract (offset + headerSize) (offset + headerSize + n) := by
  unfold headerSize at *
  have hstop : min (offset + min (4 + n) (source.size - offset)) source.size =
      offset + 4 + n := by omega
  rw [ByteArray.extract_extract, ByteArray.extract_extract, Nat.add_zero, hstop]

end Parts

theorem Reader.remaining_le (r : Reader) : r.remaining ≤ r.stream.size := by
  unfold remaining
  split
  · exact Nat.zero_le _
  · exact Nat.sub_le ..

namespace Checked

/-! ## One item -/

def record (r : Reader) : Except Fault (Except FormatError Record) := do
  let rest ← slice r.stream r.offset r.stream.size
  if rest.size < headerSize then return .error (.truncatedHeader r.offset rest.size)
  else
    let header ← slice rest 0 headerSize
    let length ← word header
    if length = 0 ∨ r.maxLength < length.toNat then
      return .error (.invalidLength r.offset length r.maxLength)
    else
      let body ← slice rest headerSize rest.size
      if body.size < length.toNat then
        return .error (.truncatedPayload r.offset length body.size)
      else
        let payload ← slice body 0 length.toNat
        return .ok ⟨r.index, r.offset, payload⟩

def next (r : Reader) : Except Fault (Option (Except FormatError Record) × Reader) :=
  if r.failed ∨ r.stream.size ≤ r.offset then return (none, r)
  else do
    match ← record r with
    | .ok record =>
      return (some (.ok record),
        { r with offset := r.offset + record.encodedLength, index := r.index + 1 })
    | .error e => return (some (.error e), { r with failed := true })

variable {r : Reader}

theorem record_eq (h : r.offset ≤ r.stream.size) : record r = pure r.record := by
  have hrest := size_rest r.stream r.offset
  rw [record, Reader.record, slice_of_le h (Nat.le_refl _), pure_bind, hrest]
  dsimp only
  by_cases hshort : r.stream.size - r.offset < headerSize
  · rw [if_pos hshort, if_pos hshort]
  · have hroom : headerSize ≤ (r.stream.extract r.offset r.stream.size).size := by omega
    have hheader := size_header (Nat.not_lt.1 hshort)
    rw [if_neg hshort, if_neg hshort, slice_of_le (Nat.zero_le _) hroom, pure_bind,
      word_of_le (Nat.le_of_eq hheader.symm), pure_bind, word32_header (Nat.not_lt.1 hshort)]
    split
    · rfl
    · rw [slice_of_le (hrest ▸ hroom) (Nat.le_of_eq hrest.symm), pure_bind, size_body]
      split
      · rfl
      · next henough =>
        have henough := Nat.not_lt.1 henough
        rw [slice_of_le (Nat.zero_le _) (by rwa [size_body]), pure_bind,
          extract_payload (Nat.not_lt.1 hshort) henough]

/-- **No item faults.** -/
theorem next_eq (r : Reader) : next r = pure r.next := by
  rw [next, Reader.next]
  split
  · rfl
  · next hmore =>
    rw [record_eq (by omega), pure_bind]
    cases r.record <;> rfl

/-! ## Walks -/

/-- Read to the end in at most the given rounds, and add the records to those `seen` before. -/
def walkFrom : (rounds : Nat) → (r : Reader) → (seen : Array Record) → Except Fault Walk
  | 0, _, _ => throw .unfinished
  | rounds + 1, r, seen => do
    match ← next r with
    | (none, r') => return ⟨seen, none, r'⟩
    | (some (.error e), r') => return ⟨seen, some e, r'⟩
    | (some (.ok record), r') => walkFrom rounds r' (seen.push record)

def walk (r : Reader) : Except Fault Walk := walkFrom (r.stream.size + 1) r #[]

theorem walkFrom_eq {rounds : Nat} (h : r.remaining < rounds) (seen : Array Record) :
    walkFrom rounds r seen = pure (r.walkFrom seen) := by
  induction rounds generalizing r seen with
  | zero => omega
  | succ rounds ih =>
    rw [walkFrom, next_eq, pure_bind]
    match hnext : r.next with
    | (none, r') => rw [Reader.walkFrom_of_end hnext]
    | (some (.error e), r') => rw [Reader.walkFrom_of_error hnext]
    | (some (.ok record), r') =>
      have hlt := Reader.remaining_lt_of_next hnext
      rw [Reader.walkFrom_of_record hnext, ← ih (by omega)]

/-- **No walk faults**, and it ends. -/
theorem walk_eq (r : Reader) : walk r = pure r.walk :=
  walkFrom_eq (Nat.lt_succ_of_le r.remaining_le) #[]

end Checked

end BlockStream
