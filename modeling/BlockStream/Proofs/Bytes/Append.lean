import BlockStream.Bytes.LittleEndian
import BlockStream.Proofs.Bytes.Segment

/-! # Two arrays, one after the other -/

namespace BlockStream

variable (a b : ByteArray) {start stop : Nat} {bytes : List UInt8}

theorem toList_append_data : (a ++ b).data.toList = a.data.toList ++ b.data.toList := by
  rw [ByteArray.data_append, Array.toList_append]

theorem bytesFrom_append_right (i : Nat) : bytesFrom (a ++ b) (i + a.size) = bytesFrom b i := by
  rw [bytesFrom, toList_append_data, ← length_toList_data, Nat.add_comm,
    List.drop_length_add_append]
  rfl

theorem byteAt_append_right (i : Nat) : byteAt (a ++ b) (i + a.size) = byteAt b i := by
  have hsize := length_toList_data a
  rw [byteAt_eq_getD, byteAt_eq_getD, toList_append_data,
    List.getD_append_right _ _ _ _ (by omega), hsize, Nat.add_sub_cancel]

theorem word32_append_right (i : Nat) : word32 (a ++ b) (i + a.size) = word32 b i := by
  simp only [word32, Nat.add_right_comm i a.size, byteAt_append_right]

theorem extract_append_left {j : Nat} (h : j ≤ a.size) (i : Nat) :
    (a ++ b).extract i j = a.extract i j := by
  apply ext_of_toList
  rw [toList_extract, toList_extract, bytesFrom, bytesFrom, toList_append_data, List.drop_append,
    List.take_append_of_le_length]
  rw [List.length_drop, length_toList_data]
  omega

theorem extract_append_right (i j : Nat) :
    (a ++ b).extract (i + a.size) (j + a.size) = b.extract i j := by
  apply ext_of_toList
  rw [toList_extract, toList_extract, bytesFrom_append_right, Nat.add_sub_add_right]

variable {a} in
theorem Segment.append_right (h : Segment a start stop bytes) :
    Segment (a ++ b) start stop bytes := by
  refine ⟨h.1, h.2.trans ?_⟩
  rw [bytesFrom, bytesFrom, toList_append_data, List.drop_append]
  exact List.prefix_append ..

end BlockStream
