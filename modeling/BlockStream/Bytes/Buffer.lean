import BlockStream.Bytes.Basic

/-!
# Buffers of fixed size

A `Buffer n` holds `n` bytes, whatever is written to it: a write past the end has no effect.
-/

namespace BlockStream

@[ext] structure Buffer (capacity : Nat) where
  bytes : ByteArray
  size_eq : bytes.size = capacity

namespace Buffer

variable {capacity : Nat}

instance : DecidableEq (Buffer capacity) := fun b b' =>
  decidable_of_iff' (b.bytes.data = b'.bytes.data) (Buffer.ext_iff.trans ByteArray.ext_iff)

def zeros (capacity : Nat) : Buffer capacity := ⟨BlockStream.zeros capacity, size_zeros capacity⟩

instance : Inhabited (Buffer capacity) := ⟨zeros capacity⟩

def ofBytes (bytes : ByteArray) : Buffer bytes.size := ⟨bytes, rfl⟩

/-- Overwrite byte `i`; nothing happens past the end. -/
@[inline] def set (b : Buffer capacity) (i : Nat) (value : UInt8) : Buffer capacity :=
  if h : i < b.bytes.size then
    ⟨b.bytes.set i value, (Array.size_set _).trans b.size_eq⟩
  else b

/-- Overwrite `length` bytes from `target` on with those of `source` from `start` on; nothing
happens unless they lie inside both. -/
@[inline] def blit (b : Buffer capacity) (target : Nat) (source : ByteArray)
    (start length : Nat) : Buffer capacity :=
  if h : target + length ≤ b.bytes.size ∧ start + length ≤ source.size then
    ⟨source.copySlice start b.bytes target length, by
      have := b.size_eq
      have hs : source.data.size = source.size := rfl
      have hb : b.bytes.data.size = b.bytes.size := rfl
      simp only [ByteArray.copySlice, ByteArray.size, Array.size_append, Array.size_extract]
      omega⟩
  else b

/-- Copy `length` bytes from `source` to `target` inside the buffer, one after the other. -/
def copyBytes (b : Buffer capacity) (source target : Nat) : (length : Nat) → Buffer capacity
  | 0 => b
  | length + 1 =>
    (b.set target (byteAt b.bytes source)).copyBytes (source + 1) (target + 1) length

def first (b : Buffer capacity) (n : Nat) : ByteArray := b.bytes.extract 0 n

/-! ## The bytes as a list -/

def toList (b : Buffer capacity) : List UInt8 := b.bytes.data.toList

@[simp] theorem length_toList (b : Buffer capacity) : b.toList.length = capacity := b.size_eq

theorem length_take_toList (b : Buffer capacity) {n : Nat} (h : n ≤ capacity) :
    (b.toList.take n).length = n := by
  rw [List.length_take, length_toList, Nat.min_eq_left h]

@[simp] theorem toList_set (b : Buffer capacity) (i : Nat) (value : UInt8) :
    (b.set i value).toList = b.toList.set i value := by
  unfold set
  split
  · next h => exact Array.toList_set _ _ value h
  · next h =>
    have hb : b.bytes.size = b.toList.length := rfl
    rw [List.set_eq_of_length_le (by omega)]

theorem toList_blit (b : Buffer capacity) {target start length : Nat} {source : ByteArray}
    (ht : target + length ≤ capacity) (hs : start + length ≤ source.size) :
    (b.blit target source start length).toList =
      b.toList.take target ++ (source.data.toList.drop start).take length ++
        b.toList.drop (target + length) := by
  have hb := b.size_eq
  have hd : source.data.size = source.size := rfl
  have hm : min length (source.size - start) = length := by omega
  have hz : b.bytes.data.size = b.toList.length := rfl
  unfold blit
  rw [dif_pos ⟨by omega, hs⟩]
  simp only [toList, ByteArray.copySlice, Array.toList_append, Array.toList_extract,
    List.extract_eq_take_drop, List.drop_zero, Nat.sub_zero, hd, hm, Nat.add_sub_cancel_left]
  congr 1
  refine List.take_of_length_le ?_
  rw [List.length_drop, hz]
  exact Nat.le_refl _

theorem length_front_blit (b : Buffer capacity) {target start length : Nat} {source : ByteArray}
    (ht : target + length ≤ capacity) (hs : start + length ≤ source.size) :
    (b.toList.take target ++ (source.data.toList.drop start).take length).length =
      target + length := by
  have hd : source.data.toList.length = source.size := rfl
  rw [List.length_append, b.length_take_toList (by omega), List.length_take, List.length_drop]
  omega

theorem toList_first (b : Buffer capacity) (n : Nat) :
    (b.first n).data.toList = b.toList.take n := by
  simp [first, toList, ByteArray.data_extract]

end Buffer

end BlockStream
