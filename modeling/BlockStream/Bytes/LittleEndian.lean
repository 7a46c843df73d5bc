import BlockStream.Bytes.Basic

/-! # Little-endian words -/

namespace BlockStream

/-- The little-endian word of bytes `i, …, i + 3`. -/
@[inline] def word32 (bytes : ByteArray) (i : Nat) : UInt32 :=
  (byteAt bytes i).toUInt32 + 256 * ((byteAt bytes (i + 1)).toUInt32 +
    256 * ((byteAt bytes (i + 2)).toUInt32 + 256 * (byteAt bytes (i + 3)).toUInt32))

/-- The little-endian word of bytes `i, …, i + 7`. -/
@[inline] def word64 (bytes : ByteArray) (i : Nat) : UInt64 :=
  (word32 bytes i).toUInt64 + 4294967296 * (word32 bytes (i + 4)).toUInt64

/-- The little-endian value of bytes `i` and `i + 1`, if `bytes` has both. -/
@[inline] def word16? (bytes : ByteArray) (i : Nat) : Option Nat :=
  if h : i + 1 < bytes.size then some (bytes[i].toNat + 256 * bytes[i + 1].toNat) else none

/-- The `width` little-endian bytes of `n`; what exceeds them is dropped. -/
def littleEndian : (width : Nat) → Nat → List UInt8
  | 0, _ => []
  | width + 1, n => n.toUInt8 :: littleEndian width (n / 256)

@[simp] theorem length_littleEndian (width n : Nat) : (littleEndian width n).length = width := by
  induction width generalizing n with
  | zero => rfl
  | succ width ih => simp [littleEndian, ih]

def pushLittleEndian (out : ByteArray) (width n : Nat) : ByteArray :=
  (littleEndian width n).foldl ByteArray.push out

theorem toList_foldl_push (bytes : List UInt8) (out : ByteArray) :
    (bytes.foldl ByteArray.push out).data.toList = out.data.toList ++ bytes := by
  induction bytes generalizing out with
  | nil => simp
  | cons b bytes ih => simp [ih, ByteArray.data_push]

theorem toList_pushLittleEndian (out : ByteArray) (width n : Nat) :
    (pushLittleEndian out width n).data.toList = out.data.toList ++ littleEndian width n :=
  toList_foldl_push ..

end BlockStream
