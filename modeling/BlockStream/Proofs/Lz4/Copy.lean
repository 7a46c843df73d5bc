import BlockStream.Lz4.Block
import BlockStream.Proofs.Block.Sink

/-! # Copies of earlier bytes -/

namespace BlockStream

namespace Lz4

@[simp] theorem length_copyBack (out : List UInt8) (distance length : Nat) :
    (copyBack out distance length).length = out.length + length := by
  induction length generalizing out with
  | zero => rfl
  | succ length ih =>
    rw [copyBack, ih, List.length_append, List.length_singleton]
    omega

theorem prefix_copyBack (out : List UInt8) (distance length : Nat) :
    out <+: copyBack out distance length := by
  induction length generalizing out with
  | zero => exact List.prefix_rfl
  | succ length ih => exact (List.prefix_append ..).trans (ih _)

theorem copyBack_of_le {out : List UInt8} {distance length : Nat} (hlen : length ≤ distance)
    (hout : distance ≤ out.length) :
    copyBack out distance length = out ++ (out.drop (out.length - distance)).take length := by
  induction length generalizing out with
  | zero => simp [copyBack]
  | succ length ih =>
    have hlt : out.length - distance < out.length := by omega
    have hnext : (out ++ [out[out.length - distance]]).length - distance =
        out.length - distance + 1 := by
      rw [List.length_append, List.length_singleton]
      omega
    rw [copyBack, List.getD_eq_getElem _ _ hlt, ih (by omega) (by simp; omega), hnext,
      List.drop_append_of_le_length hlt, List.take_append_of_le_length (by simp; omega),
      List.drop_eq_getElem_cons hlt, List.take_succ_cons, List.append_assoc]
    rfl

/-- **A match repeats what the list holds there anyway.** -/
theorem copyBack_take {bytes : List UInt8} {pos distance length : Nat} (hpos : 1 ≤ distance)
    (hle : distance ≤ pos) (hlen : pos + length ≤ bytes.length)
    (hagree : ∀ i < length, bytes.getD (pos + i) 0 = bytes.getD (pos + i - distance) 0) :
    copyBack (bytes.take pos) distance length = bytes.take (pos + length) := by
  induction length generalizing pos with
  | zero => rfl
  | succ length ih =>
    have hlt : pos < bytes.length := by omega
    have hbyte : (bytes.take pos).getD ((bytes.take pos).length - distance) 0 = bytes[pos] := by
      have h0 := hagree 0 (Nat.succ_pos _)
      rw [Nat.add_zero, List.getD_eq_getElem _ _ hlt] at h0
      rw [List.length_take, Nat.min_eq_left (by omega), h0, getD_take (by omega)]
    rw [copyBack, hbyte, ← List.take_succ_eq_append_getElem hlt,
      ih (by omega) (by omega), Nat.add_assoc, Nat.add_comm 1]
    intro i hi
    have := hagree (i + 1) (by omega)
    rwa [Nat.add_comm i 1, ← Nat.add_assoc] at this

end Lz4

open Lz4

variable {capacity : Nat}

theorem Buffer.take_copyBytes {b : Buffer capacity} {source target length : Nat}
    (hlt : source < target) (hroom : target + length ≤ capacity) :
    (b.copyBytes source target length).toList.take (target + length) =
      copyBack (b.toList.take target) (target - source) length := by
  induction length generalizing b source target with
  | zero => rfl
  | succ length ih =>
    have htake : (b.toList.take target).length = target := b.length_take_toList (by omega)
    have hlist : b.bytes.data.toList = b.toList := rfl
    have hbyte : (b.toList.take target).getD ((b.toList.take target).length - (target - source)) 0
        = byteAt b.bytes source := by
      rw [htake, Nat.sub_sub_self (by omega), byteAt_eq_getD, hlist, getD_take hlt]
    have hset : (b.set target (byteAt b.bytes source)).toList.take (target + 1) =
        b.toList.take target ++ [byteAt b.bytes source] := by
      rw [Buffer.toList_set, List.take_succ_eq_append_getElem
        (by rw [List.length_set, Buffer.length_toList]; omega), List.getElem_set_self,
        List.take_set_of_le (Nat.le_refl _)]
    have hend : target + (length + 1) = target + 1 + length := by omega
    rw [Buffer.copyBytes, copyBack, hbyte, ← hset, hend, ih (by omega) (by omega),
      Nat.add_sub_add_right]

namespace Sink

variable {s : Sink capacity} {distance length : Nat}

@[simp] theorem mark_pushBack (s : Sink capacity) (distance length : Nat) :
    (s.pushBack distance length).mark = s.mark + length := by
  unfold pushBack
  simp only
  split <;> rfl

/-- **What a sink copies is what a match means.** -/
theorem written_pushBack (hpos : 1 ≤ distance) (hle : distance ≤ s.mark)
    (hroom : s.mark + length ≤ capacity) :
    (s.pushBack distance length).written = copyBack s.written distance length := by
  have hlen : s.written.length = s.mark := length_written (Nat.le_of_add_right_le hroom)
  unfold pushBack
  simp only
  split
  · next hblock =>
    let start := s.mark - distance
    have hpiece : (s.buffer.bytes.extract start (start + length)).data.toList =
        (s.written.drop start).take length := by
      rw [toList_extract, Nat.add_sub_cancel_left, written, List.drop_take, List.take_take,
        Nat.min_eq_left (by omega)]
      rfl
    have hsize : 0 + length ≤ (s.buffer.bytes.extract start (start + length)).size := by
      have := s.buffer.size_eq
      rw [ByteArray.size_extract]
      omega
    have hpush := written_pushSlice hsize hroom
    rw [List.drop_zero, hpiece, List.take_take, Nat.min_self] at hpush
    rw [copyBack_of_le hblock (by omega), hlen]
    exact hpush
  · have hstart : s.mark - distance < s.mark := by omega
    have hcopy := Buffer.take_copyBytes (b := s.buffer) hstart hroom
    rw [Nat.sub_sub_self hle] at hcopy
    exact hcopy

end Sink

end BlockStream
