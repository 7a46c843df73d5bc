import BlockStream.Proofs.Bytes.Append
import Mathlib.Data.Nat.ModEq

/-! # The blocks of an array -/

namespace BlockStream

variable {size : Nat} {data block : ByteArray}

theorem lt_blockCount_iff {i length : Nat} (hsize : 0 < size) :
    i < blockCount size length ↔ i * size < length := by
  rw [blockCount, ← Nat.succ_le_iff, Nat.le_div_iff_mul_le hsize, Nat.succ_mul]
  omega

theorem blockCount_zero (hsize : 0 < size) : blockCount size 0 = 0 := by
  apply Nat.eq_zero_of_not_pos
  intro h
  exact Nat.not_lt_zero _ ((lt_blockCount_iff hsize).1 h)

theorem blockCount_add (hsize : 0 < size) {length : Nat} (h : size ∣ length) (more : Nat) :
    blockCount size (length + more) = length / size + blockCount size more := by
  have hfirst : length + more + size - 1 = length + (more + size - 1) := by omega
  rw [blockCount, hfirst, Nat.add_div_of_dvd_right h, blockCount]

theorem blockCount_of_dvd (hsize : 0 < size) {length : Nat} (h : size ∣ length) :
    blockCount size length = length / size := by
  simpa [blockCount_zero hsize] using blockCount_add hsize h 0

theorem blockCount_of_lt {rest : Nat} (h : rest < size) :
    blockCount size rest = if rest = 0 then 0 else 1 := by
  split
  · next hzero => rw [hzero, blockCount_zero (by omega)]
  · have hone : rest + size - 1 = rest - 1 + size := by omega
    rw [blockCount, hone, Nat.add_div_right _ (by omega), Nat.div_eq_of_lt (by omega)]

theorem blocks_of_size_eq_zero (hsize : 0 < size) (h : data.size = 0) : blocks size data = [] := by
  rw [blocks, h, blockCount_zero hsize]
  rfl

theorem exists_of_mem_blocks (hsize : 0 < size) (h : block ∈ blocks size data) :
    ∃ i, i * size < data.size ∧ block = blockAt size data i := by
  obtain ⟨i, hi, rfl⟩ := List.mem_map.1 h
  exact ⟨i, (lt_blockCount_iff hsize).1 (List.mem_range.1 hi), rfl⟩

@[simp] theorem size_blockAt (size : Nat) (data : ByteArray) (i : Nat) :
    (blockAt size data i).size = min size (data.size - i * size) := by
  rw [blockAt, ByteArray.size_extract, Nat.succ_mul]
  omega

theorem size_pos_of_mem_blocks (hsize : 0 < size) (h : block ∈ blocks size data) :
    1 ≤ block.size := by
  obtain ⟨i, hi, rfl⟩ := exists_of_mem_blocks hsize h
  rw [size_blockAt]
  omega

theorem size_le_of_mem_blocks (hsize : 0 < size) (h : block ∈ blocks size data) :
    block.size ≤ min data.size size := by
  obtain ⟨i, hi, rfl⟩ := exists_of_mem_blocks hsize h
  rw [size_blockAt]
  omega

theorem map_size_blocks (hsize : 0 < size) (data : ByteArray) :
    (blocks size data).map ByteArray.size = List.replicate (data.size / size) size ++
      if data.size % size = 0 then [] else [data.size % size] := by
  have hcount := blockCount_add hsize (Nat.dvd_mul_right size (data.size / size)) (data.size % size)
  rw [Nat.div_add_mod, Nat.mul_div_cancel_left _ hsize,
    blockCount_of_lt (Nat.mod_lt _ hsize)] at hcount
  have hfull : (List.range (data.size / size)).map (ByteArray.size ∘ blockAt size data) =
      List.replicate (data.size / size) size := by
    refine List.eq_replicate_iff.2 ⟨by simp, List.forall_mem_map.2 fun i hi => ?_⟩
    have hle : (i + 1) * size ≤ data.size :=
      (Nat.le_div_iff_mul_le hsize).1 (List.mem_range.1 hi)
    rw [Nat.succ_mul] at hle
    rw [Function.comp_apply, size_blockAt]
    omega
  have hrest : (blockAt size data (data.size / size)).size = data.size % size := by
    rw [size_blockAt, ← Nat.mod_eq_sub_div_mul]
    exact Nat.min_eq_right (Nat.le_of_lt (Nat.mod_lt _ hsize))
  rw [blocks, hcount, List.map_map]
  split
  · rw [List.append_nil]
    exact hfull
  · rw [List.range_succ, List.map_append, hfull, List.map_singleton, Function.comp_apply, hrest]

theorem flatMap_range_blockAt (size : Nat) (data : ByteArray) (n : Nat) :
    (List.range n).flatMap (fun i => (blockAt size data i).data.toList) =
      data.data.toList.take (n * size) := by
  induction n with
  | zero => rw [Nat.zero_mul, List.take_zero, List.range_zero, List.flatMap_nil]
  | succ n ih =>
    rw [List.range_succ, List.flatMap_append, ih, List.flatMap_singleton, blockAt, toList_extract,
      bytesFrom, Nat.succ_mul, Nat.add_sub_cancel_left, List.take_add]

/-- **Cutting an array into blocks loses nothing.** -/
theorem flatMap_blocks (hsize : 0 < size) (data : ByteArray) :
    (blocks size data).flatMap (·.data.toList) = data.data.toList := by
  have hcover : data.size ≤ blockCount size data.size * size :=
    Nat.le_of_not_lt fun h => Nat.lt_irrefl _ ((lt_blockCount_iff hsize).2 h)
  rw [blocks, List.flatMap_map, flatMap_range_blockAt]
  exact List.take_of_length_le hcover

/-! ## Two arrays, one after the other -/

section Append

variable {a : ByteArray} (b : ByteArray)

theorem blockAt_append_left {i : Nat} (h : (i + 1) * size ≤ a.size) :
    blockAt size (a ++ b) i = blockAt size a i :=
  extract_append_left a b h _

theorem blockAt_append_right {count : Nat} (h : a.size = count * size) (i : Nat) :
    blockAt size (a ++ b) (count + i) = blockAt size b i := by
  rw [blockAt, blockAt, ← extract_append_right a b, h, Nat.add_assoc, Nat.add_comm count,
    Nat.add_comm count, Nat.add_mul, Nat.add_mul _ count]

/-- **An array behind whole blocks** is cut as it is by itself. -/
theorem blocks_append (hsize : 0 < size) (h : size ∣ a.size) :
    blocks size (a ++ b) = blocks size a ++ blocks size b := by
  have hwhole : a.size = blockCount size a.size * size := by
    rw [blockCount_of_dvd hsize h, Nat.div_mul_cancel h]
  have hleft : ∀ i ∈ List.range (blockCount size a.size),
      blockAt size (a ++ b) i = blockAt size a i := by
    intro i hi
    refine blockAt_append_left b ?_
    rw [hwhole]
    exact Nat.mul_le_mul_right size (List.mem_range.1 hi)
  rw [blocks, ByteArray.size_append, blockCount_add hsize h, ← blockCount_of_dvd hsize h,
    List.range_add, List.map_append, List.map_congr_left hleft, List.map_map, blocks, blocks]
  exact congrArg _ (List.map_congr_left fun i _ => blockAt_append_right b hwhole i)

end Append

end BlockStream
