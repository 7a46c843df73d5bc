import BlockStream.Bytes.LittleEndian

/-!
# Records

A stream is a concatenation of records, and nothing else. A record is the length of its payload as
a four-byte little-endian word, followed by the payload.
-/

namespace BlockStream

def headerSize : Nat := 4

@[ext] structure Record where
  /-- The number of records before it. -/
  index : Nat
  /-- The position of its first byte in the stream. -/
  offset : Nat
  payload : ByteArray

instance : DecidableEq Record := fun r r' =>
  decidable_of_iff'
    (r.index = r'.index ∧ r.offset = r'.offset ∧ r.payload.data = r'.payload.data)
    (by rw [Record.ext_iff, ByteArray.ext_iff])

/-- The number of bytes that a record takes in its stream. -/
def Record.encodedLength (r : Record) : Nat := headerSize + r.payload.size

/-- Append a record. The payload must have at least one byte, and fewer than `2 ^ 32`. -/
def pushRecord (stream payload : ByteArray) : ByteArray :=
  pushLittleEndian stream headerSize payload.size ++ payload

theorem toList_pushRecord (stream payload : ByteArray) :
    (pushRecord stream payload).data.toList =
      stream.data.toList ++ littleEndian headerSize payload.size ++ payload.data.toList := by
  rw [pushRecord, ByteArray.data_append, Array.toList_append, toList_pushLittleEndian]

/-- Why bytes are not a series of records. -/
inductive FormatError where
  /-- A record states a length of zero, or one above the largest allowed. -/
  | invalidLength (offset : Nat) (length : UInt32) (max : Nat)
  /-- Fewer bytes are left than a length takes. -/
  | truncatedHeader (offset available : Nat)
  /-- Fewer bytes are left than the record states. -/
  | truncatedPayload (offset : Nat) (length : UInt32) (available : Nat)
  deriving DecidableEq, Repr

def FormatError.message : FormatError → String
  | .invalidLength offset length max =>
    s!"record at offset {offset} declares invalid length {length} (allowed 1..={max})"
  | .truncatedHeader offset available =>
    s!"stream ends inside a record header at offset {offset} ({available} bytes left)"
  | .truncatedPayload offset length available =>
    s!"record at offset {offset} declares {length} payload bytes but only {available} remain"

end BlockStream
