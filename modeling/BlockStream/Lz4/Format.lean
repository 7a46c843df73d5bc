/-!
# The LZ4 block format

A block is a series of sequences: a token, a run of literals, and a reference back to bytes
decoded before. The last sequence has literals only. A token has four bits for each of its two
lengths, and a full field is continued by bytes of its own.
-/

namespace BlockStream.Lz4

/-- The shortest match that a sequence can carry. -/
def minMatch : Nat := 4

/-- The number of bytes at the end of a block that are always literals. -/
def lastLiterals : Nat := 5

/-- No match starts within this many bytes of the end of a block. -/
def matchMargin : Nat := 12

/-- The shortest block in which a match can occur. -/
def minInput : Nat := matchMargin + 1

/-- The farthest that a match can refer back. -/
def maxDistance : Nat := 65535

def maxInput : Nat := 0x7E000000

/-- The largest value of a field of the token, which says that more bytes of the length follow. -/
def fieldMax : Nat := 15

/-! ## Worst-case size -/

/-- The worst-case compressed size of a block of `length` bytes, if it is not too large. -/
def bound (length : Nat) : Option Nat :=
  if length ≤ maxInput then some (length + length / 255 + 16) else none

/-- The worst-case compressed size on signed lengths: zero stands for a length that is negative
or too large. -/
def bound32 (length : Int32) : Int32 :=
  if length < 0 then 0 else
    match bound length.toNatClampNeg with
    | some n => Int32.ofNat n
    | none => 0

/-! ## Tokens -/

/-- The token of a sequence with the two given lengths, each cut at `fieldMax`. The length of a
match counts from `minMatch`. -/
@[inline] def token (literals excess : Nat) : UInt8 :=
  (16 * min literals fieldMax + min excess fieldMax).toUInt8

/-- The number of literals that a token states. -/
@[inline] def literalField (token : UInt8) : Nat := token.toNat / 16

/-- The length of the match that a token states, less `minMatch`. -/
@[inline] def matchField (token : UInt8) : Nat := token.toNat % 16

end BlockStream.Lz4
