import BlockStream.Proofs.Lz4.Safety

/-!
# What a match leaves behind

A sink copies the bytes of a match as one block where enough of them stand before the mark, and
else one after the other, so that it reads bytes that it has just written. Both leave the same.
-/

namespace BlockStream

variable {capacity : Nat}

namespace Buffer

variable {b after after' : Buffer capacity} {target distance length : Nat}

/-! ## Single bytes -/

theorem byteAt_toList (b : Buffer capacity) (p : Nat) : byteAt b.bytes p = b.toList.getD p 0 :=
  byteAt_eq_getD ..

theorem ext_of_byteAt (h : ∀ p, byteAt b.bytes p = byteAt after.bytes p) : b = after := by
  have hsize : b.bytes.size = after.bytes.size := b.size_eq.trans after.size_eq.symm
  apply Buffer.ext
  apply ByteArray.ext_getElem hsize
  intro p hp hp'
  rw [← byteAt_of_lt hp, ← byteAt_of_lt hp', h p]

theorem byteAt_set_self (b : Buffer capacity) (value : UInt8) {i : Nat} (h : i < capacity) :
    byteAt (b.set i value).bytes i = value := by
  have hlt : i < b.toList.length := by rwa [length_toList]
  rw [byteAt_toList, toList_set, List.getD_eq_getElem?_getD, List.getElem?_set_self hlt,
    Option.getD_some]

theorem byteAt_set_of_ne (b : Buffer capacity) (value : UInt8) {i p : Nat} (h : p ≠ i) :
    byteAt (b.set i value).bytes p = byteAt b.bytes p := by
  rw [byteAt_toList, byteAt_toList, toList_set, List.getD_eq_getElem?_getD,
    List.getElem?_set_ne h.symm, ← List.getD_eq_getElem?_getD]

section Blit

variable {source : ByteArray} {start : Nat}

theorem byteAt_blit (htarget : target + length ≤ capacity) (hstart : start + length ≤ source.size)
    {i : Nat} (hi : i < length) :
    byteAt (b.blit target source start length).bytes (target + i) = byteAt source (start + i) := by
  have hfront : (b.toList.take target).length = target := b.length_take_toList (by omega)
  have hpiece : ((source.data.toList.drop start).take length).length = length := by
    rw [List.length_take, List.length_drop, length_toList_data]
    omega
  rw [byteAt_toList, toList_blit b htarget hstart, List.append_assoc,
    List.getD_append_right _ _ _ _ (by omega), hfront, Nat.add_sub_cancel_left,
    List.getD_append _ _ _ _ (by omega), byteAt_eq_getD, getD_take hi, getD_drop]

theorem byteAt_blit_outside (htarget : target + length ≤ capacity)
    (hstart : start + length ≤ source.size) {p : Nat} (hp : p < target ∨ target + length ≤ p) :
    byteAt (b.blit target source start length).bytes p = byteAt b.bytes p := by
  have hfront : (b.toList.take target).length = target := b.length_take_toList (by omega)
  have hpiece := b.length_front_blit htarget hstart
  rw [byteAt_toList, byteAt_toList, toList_blit b htarget hstart]
  rcases hp with hbefore | hbehind
  · rw [List.append_assoc, List.getD_append _ _ _ _ (by omega), getD_take hbefore]
  · rw [List.getD_append_right _ _ _ _ (by omega), hpiece, getD_drop,
      Nat.add_sub_cancel' hbehind]

end Blit

/-! ## Repeated bytes -/

/-- After a write, the `length` bytes from `target` on repeat the `distance` bytes that stood before
them, and all other bytes are as they were. -/
structure Repeats (b after : Buffer capacity) (target distance length : Nat) : Prop where
  inside : ∀ i < length,
    byteAt after.bytes (target + i) = byteAt b.bytes (target - distance + i % distance)
  outside : ∀ p, p < target ∨ target + length ≤ p → byteAt after.bytes p = byteAt b.bytes p

/-- **There is only one such write.** -/
theorem Repeats.unique (h : b.Repeats after target distance length)
    (h' : b.Repeats after' target distance length) : after = after' := by
  apply ext_of_byteAt
  intro p
  by_cases hp : p < target ∨ target + length ≤ p
  · rw [h.outside p hp, h'.outside p hp]
  · obtain ⟨i, rfl⟩ : ∃ i, p = target + i := ⟨p - target, by omega⟩
    rw [h.inside i (by omega), h'.inside i (by omega)]

/-- **One byte is copied, and the rest of the copy goes on from the buffer with this byte.** Once in
every round through the distance it reads this very byte, and this starts the next round. -/
theorem Repeats.of_set (hpos : 1 ≤ distance) (hle : distance ≤ target) (hlt : target < capacity)
    (h : (b.set target (byteAt b.bytes (target - distance))).Repeats after (target + 1) distance
      length) : b.Repeats after target distance (length + 1) where
  inside := by
    intro i hi
    cases i with
    | zero =>
      rw [Nat.add_zero, h.outside target (Or.inl (Nat.lt_succ_self _)), byteAt_set_self b _ hlt,
        Nat.zero_mod, Nat.add_zero]
    | succ i =>
      have hmod := Nat.mod_lt i hpos
      have hnext : (i + 1) % distance = (i % distance + 1) % distance :=
        (Nat.mod_add_mod i distance 1).symm
      rw [Nat.add_comm i 1, ← Nat.add_assoc, h.inside i (by omega), Nat.add_comm 1 i, hnext]
      by_cases hwrap : i % distance + 1 = distance
      · have hread : target + 1 - distance + i % distance = target := by omega
        rw [hread, byteAt_set_self b _ hlt, hwrap, Nat.mod_self, Nat.add_zero]
      · have hlast : i % distance + 1 < distance := by omega
        have hread :
            target + 1 - distance + i % distance = target - distance + (i % distance + 1) := by
          omega
        rw [hread, byteAt_set_of_ne b _ (by omega), Nat.mod_eq_of_lt hlast]
  outside := by
    intro p hp
    rw [h.outside p (by omega), byteAt_set_of_ne b _ (by omega)]

/-- **A copy byte by byte repeats the bytes before it**, by induction on its length. -/
theorem repeats_copyBytes (hpos : 1 ≤ distance) (hle : distance ≤ target)
    (hroom : target + length ≤ capacity) :
    b.Repeats (b.copyBytes (target - distance) target length) target distance length := by
  induction length generalizing b target with
  | zero => exact ⟨fun i hi => absurd hi (Nat.not_lt_zero i), fun p _ => rfl⟩
  | succ length ih =>
    apply Repeats.of_set hpos hle (by omega)
    rw [copyBytes, ← Nat.sub_add_comm hle]
    exact ih (by omega) (by omega)

/-- A block that does not reach into itself is a first round, or a part of it. -/
theorem repeats_blit (hshort : length ≤ distance) (hle : distance ≤ target)
    (hroom : target + length ≤ capacity) :
    b.Repeats
      (b.blit target (b.bytes.extract (target - distance) (target - distance + length)) 0 length)
      target distance length := by
  have hsize := b.size_eq
  have hpiece : 0 + length ≤
      (b.bytes.extract (target - distance) (target - distance + length)).size := by
    rw [ByteArray.size_extract]
    omega
  refine ⟨fun i hi => ?_, fun p hp => byteAt_blit_outside hroom hpiece hp⟩
  rw [byteAt_blit hroom hpiece hi, Nat.zero_add, byteAt_extract (by omega),
    Nat.mod_eq_of_lt (by omega)]

end Buffer

/-! ## Matches -/

namespace Sink

variable {s : Sink capacity} {distance length : Nat}

theorem repeats_pushBack (hpos : 1 ≤ distance) (hle : distance ≤ s.mark)
    (hroom : s.mark + length ≤ capacity) :
    s.buffer.Repeats (s.pushBack distance length).buffer s.mark distance length := by
  unfold pushBack
  by_cases hshort : length ≤ distance
  · simp only [if_pos hshort]
    exact Buffer.repeats_blit hshort hle hroom
  · simp only [if_neg hshort]
    exact Buffer.repeats_copyBytes hpos hle hroom

/-- **Both ways to carry out a match leave the same bytes.** No access of either is outside of the
destination. Afterwards the bytes from the mark on repeat those before the mark, the first ones
again after every `distance` bytes, and no other byte has changed. A copy byte by byte leaves just
this for every length, also where the match is copied as a block. -/
theorem periodic_pushBack (hpos : 1 ≤ distance) (hle : distance ≤ s.mark)
    (hroom : s.mark + length ≤ capacity) :
    Checked.pushBack s distance length = pure (s.pushBack distance length) ∧
      (∀ i < length, byteAt (s.pushBack distance length).buffer.bytes (s.mark + i) =
        byteAt s.buffer.bytes (s.mark - distance + i % distance)) ∧
      (∀ p, p < s.mark ∨ s.mark + length ≤ p →
        byteAt (s.pushBack distance length).buffer.bytes p = byteAt s.buffer.bytes p) ∧
      (s.pushBack distance length).buffer =
        s.buffer.copyBytes (s.mark - distance) s.mark length := by
  have hrepeats := repeats_pushBack hpos hle hroom
  have hbytewise := Buffer.repeats_copyBytes (b := s.buffer) hpos hle hroom
  exact ⟨Checked.pushBack_eq hle hroom, hrepeats.inside, hrepeats.outside,
    hrepeats.unique hbytewise⟩

theorem periodic_pushBack_letters :
    let s : Sink 12 := (((ofBuffer (Buffer.zeros 12)).push 97).push 98).push 99
    (s.pushBack 3 8).buffer.toList = [97, 98, 99, 97, 98, 99, 97, 98, 99, 97, 98, 0] ∧
      (∀ i < 8, byteAt (s.pushBack 3 8).buffer.bytes (3 + i) =
        byteAt s.buffer.bytes (3 - 3 + i % 3)) ∧
      (s.pushBack 3 3).buffer = s.buffer.copyBytes (3 - 3) 3 3 := by
  intro s
  have hlong := @periodic_pushBack 12 s 3 8 (by decide) (Nat.le_refl 3) (by decide)
  have hblock := @periodic_pushBack 12 s 3 3 (by decide) (Nat.le_refl 3) (by decide)
  exact ⟨by decide +kernel, hlong.2.1, hblock.2.2.2⟩

end Sink

end BlockStream
