import BlockStream.Bytes.Basic
import Mathlib.Data.List.GetD

/-!
# Segments of byte arrays

Formats are stated as lists of bytes, and readers walk an array by position. `Segment source start
stop bytes` relates the two: the list `bytes` stands in `source` from `start` up to `stop`.
-/

namespace BlockStream

def bytesFrom (source : ByteArray) (pos : Nat) : List UInt8 := source.data.toList.drop pos

/-- The bytes from `start` up to `stop` are `bytes`. -/
def Segment (source : ByteArray) (start stop : Nat) (bytes : List UInt8) : Prop :=
  stop = start + bytes.length ∧ bytes <+: bytesFrom source start

variable {source : ByteArray} {start stop : Nat} {bytes : List UInt8}

/-! ## Single bytes of a piece -/

theorem getD_take {list : List UInt8} {i n : Nat} (h : i < n) :
    (list.take n).getD i 0 = list.getD i 0 := by
  rw [List.getD_eq_getElem?_getD, List.getElem?_take_of_lt h, ← List.getD_eq_getElem?_getD]

theorem getD_drop (list : List UInt8) (n i : Nat) :
    (list.drop n).getD i 0 = list.getD (n + i) 0 := by
  rw [List.getD_eq_getElem?_getD, List.getElem?_drop, ← List.getD_eq_getElem?_getD]

/-! ## What is ahead of a position -/

theorem length_toList_data (source : ByteArray) : source.data.toList.length = source.size := rfl

@[simp] theorem length_bytesFrom (source : ByteArray) (pos : Nat) :
    (bytesFrom source pos).length = source.size - pos := by
  rw [bytesFrom, List.length_drop, length_toList_data]

theorem bytesFrom_of_lt {pos : Nat} (h : pos < source.size) :
    bytesFrom source pos = source[pos] :: bytesFrom source (pos + 1) :=
  List.drop_eq_getElem_cons h

@[simp] theorem toList_extract (source : ByteArray) (i j : Nat) :
    (source.extract i j).data.toList = (bytesFrom source i).take (j - i) := by
  rw [ByteArray.data_extract, Array.toList_extract, List.extract_eq_take_drop]
  rfl

theorem byteAt_eq_getD (source : ByteArray) (i : Nat) :
    byteAt source i = source.data.toList.getD i 0 := by
  by_cases h : i < source.size
  · rw [byteAt_of_lt h, List.getD_eq_getElem _ _ h]
    rfl
  · rw [byteAt_of_le (by omega), List.getD_eq_default _ _ (by rw [length_toList_data]; omega)]

theorem byteAt_extract {i j k : Nat} (h : i + k < j) :
    byteAt (source.extract i j) k = byteAt source (i + k) := by
  rw [byteAt_eq_getD, byteAt_eq_getD, toList_extract, bytesFrom, getD_take (by omega), getD_drop]

theorem ext_of_toList {a b : ByteArray} (h : a.data.toList = b.data.toList) : a = b :=
  ByteArray.ext (Array.toList_inj.1 h)

/-! ## Segments -/

theorem segment_nil_iff : Segment source start stop [] ↔ stop = start := by
  simp [Segment]

theorem segment_cons_iff {byte : UInt8} :
    Segment source start stop (byte :: bytes) ↔
      ∃ h : start < source.size, source[start] = byte ∧ Segment source (start + 1) stop bytes := by
  by_cases h : start < source.size
  · rw [Segment, Segment, bytesFrom_of_lt h, List.cons_prefix_cons, List.length_cons]
    constructor
    · rintro ⟨hstop, rfl, hpre⟩
      exact ⟨h, rfl, by omega, hpre⟩
    · rintro ⟨-, rfl, hstop, hpre⟩
      exact ⟨by omega, rfl, hpre⟩
  · constructor
    · rintro ⟨-, hpre⟩
      have := hpre.length_le
      rw [length_bytesFrom, List.length_cons] at this
      omega
    · rintro ⟨hlt, -⟩
      exact absurd hlt h

theorem segment_append_iff {xs ys : List UInt8} :
    Segment source start stop (xs ++ ys) ↔
      ∃ mid, Segment source start mid xs ∧ Segment source mid stop ys := by
  induction xs generalizing start with
  | nil => simp [segment_nil_iff]
  | cons x xs ih =>
    simp only [List.cons_append, segment_cons_iff, ih]
    constructor
    · rintro ⟨h, hx, mid, hxs, hys⟩
      exact ⟨mid, ⟨h, hx, hxs⟩, hys⟩
    · rintro ⟨mid, ⟨h, hx, hxs⟩, hys⟩
      exact ⟨h, hx, mid, hxs, hys⟩

theorem Segment.start_le (h : Segment source start stop bytes) : start ≤ stop := by
  have := h.1
  omega

theorem Segment.stop_le (h : Segment source start stop bytes) (hstart : start ≤ source.size) :
    stop ≤ source.size := by
  have := h.2.length_le
  rw [length_bytesFrom] at this
  have := h.1
  omega

theorem Segment.eq_take (h : Segment source start stop bytes) :
    bytes = (bytesFrom source start).take (stop - start) := by
  have := List.prefix_iff_eq_take.1 h.2
  rwa [h.1, Nat.add_sub_cancel_left]

/-- **Two lists that stand in one place are equal.** -/
theorem Segment.unique {other : List UInt8} (h : Segment source start stop bytes)
    (h' : Segment source start stop other) : bytes = other :=
  h.eq_take.trans h'.eq_take.symm

theorem segment_take {n : Nat} (h : start + n ≤ source.size) :
    Segment source start (start + n) ((bytesFrom source start).take n) := by
  refine ⟨?_, List.take_prefix ..⟩
  rw [List.length_take, length_bytesFrom]
  omega

theorem segment_size_iff (h : start ≤ source.size) :
    Segment source start source.size bytes ↔ bytes = bytesFrom source start := by
  constructor
  · intro hs
    rw [hs.eq_take, ← length_bytesFrom, List.take_length]
  · rintro rfl
    exact ⟨by rw [length_bytesFrom]; omega, List.prefix_rfl⟩

theorem segment_zero_iff :
    Segment source 0 source.size bytes ↔ bytes = source.data.toList :=
  segment_size_iff (Nat.zero_le _)

theorem segment_of_toList {before after : List UInt8}
    (h : source.data.toList = before ++ bytes ++ after) :
    Segment source before.length (before.length + bytes.length) bytes := by
  refine ⟨rfl, after, ?_⟩
  rw [bytesFrom, h, List.append_assoc, List.drop_left]

theorem Segment.toList_extract (h : Segment source start stop bytes) :
    (source.extract start stop).data.toList = bytes := by
  rw [BlockStream.toList_extract]
  exact h.eq_take.symm

/-! ## The front of an array -/

theorem bytesFrom_extract_zero (source : ByteArray) (pos cut : Nat) :
    bytesFrom (source.extract 0 cut) pos = (bytesFrom source pos).take (cut - pos) := by
  rw [bytesFrom, toList_extract, Nat.sub_zero, List.drop_take, bytesFrom, List.drop_zero]
  rfl

theorem Segment.extract {cut : Nat} (h : Segment source start stop bytes) (hcut : stop ≤ cut) :
    Segment (source.extract 0 cut) start stop bytes := by
  refine ⟨h.1, ?_⟩
  rw [bytesFrom_extract_zero, List.prefix_take_iff]
  exact ⟨h.2, by have := h.1; omega⟩

theorem Segment.of_extract {cut : Nat} (h : Segment (source.extract 0 cut) start stop bytes) :
    Segment source start stop bytes := by
  refine ⟨h.1, h.2.trans ?_⟩
  rw [bytesFrom_extract_zero]
  exact List.take_prefix ..

end BlockStream
