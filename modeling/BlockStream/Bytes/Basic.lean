/-! # Byte arrays -/

namespace BlockStream

/-- Byte `i` of `bytes`, zero past the end. -/
@[inline] def byteAt (bytes : ByteArray) (i : Nat) : UInt8 :=
  if h : i < bytes.size then bytes[i] else 0

theorem byteAt_of_lt {bytes : ByteArray} {i : Nat} (h : i < bytes.size) :
    byteAt bytes i = bytes[i] := dif_pos h

theorem byteAt_of_le {bytes : ByteArray} {i : Nat} (h : bytes.size ≤ i) :
    byteAt bytes i = 0 := dif_neg (by omega)

/-! ## Zeros -/

/-- The array of `n` zero bytes, by doubling. -/
def zeros (n : Nat) : ByteArray :=
  if n = 0 then ByteArray.empty
  else
    let half := zeros (n / 2)
    if n % 2 = 0 then half ++ half else (half ++ half).push 0
termination_by n

@[simp] theorem size_zeros (n : Nat) : (zeros n).size = n := by
  fun_induction zeros n with
  | case1 => rfl
  | case2 n _ half even ih => simp only [half, ByteArray.size_append, ih]; omega
  | case3 n _ half odd ih => simp only [half, ByteArray.size_push, ByteArray.size_append, ih]; omega

/-! ## Blocks -/

/-- How many blocks of `size` bytes cover `length` bytes, the last one possibly in part. -/
def blockCount (size length : Nat) : Nat := (length + size - 1) / size

def blockAt (size : Nat) (data : ByteArray) (i : Nat) : ByteArray :=
  data.extract (i * size) ((i + 1) * size)

/-- The blocks of `data`, in order: `size` bytes each, except that the last may be shorter. -/
def blocks (size : Nat) (data : ByteArray) : List ByteArray :=
  (List.range (blockCount size data.size)).map (blockAt size data)

@[simp] theorem length_blocks (size : Nat) (data : ByteArray) :
    (blocks size data).length = blockCount size data.size := by
  simp [blocks]

end BlockStream
