import BlockStream.Block.Sink
import BlockStream.Proofs.Bytes.Segment

/-!
# What writing comes to

A sink counts every byte, so its count does not depend on the size of the destination; and what it
holds is right as long as everything fitted (**`Sink.Appends.delivers_finish`**).
-/

namespace BlockStream

variable {capacity : Nat}

theorem Buffer.size_first {n : Nat} (b : Buffer capacity) (h : n ≤ capacity) :
    (b.first n).size = n := by
  rw [first, ByteArray.size_extract, b.size_eq, Nat.min_eq_left h, Nat.sub_zero]

/-! ## Outcomes -/

/-- The operation succeeds, and the bytes that it wrote are `bytes`. -/
def Outcome.Yields (o : Outcome capacity) (bytes : List UInt8) : Prop :=
  o.result = .ok bytes.length ∧ o.buffer.toList.take bytes.length = bytes

theorem Outcome.Yields.toList_first {o : Outcome capacity} {bytes : List UInt8}
    (h : o.Yields bytes) : (o.buffer.first bytes.length).data.toList = bytes := by
  rw [Buffer.toList_first, h.2]

theorem Outcome.Yields.length_le {o : Outcome capacity} {bytes : List UInt8}
    (h : o.Yields bytes) : bytes.length ≤ capacity := by
  have := congrArg List.length h.2
  rw [List.length_take, Buffer.length_toList] at this
  omega

theorem Outcome.Yields.unique {o : Outcome capacity} {xs ys : List UInt8} (h : o.Yields xs)
    (h' : o.Yields ys) : xs = ys := by
  have hlength : xs.length = ys.length := Except.ok.inj (h.1.symm.trans h'.1)
  rw [← h.2, ← h'.2, hlength]

theorem Outcome.Yields.bytes_eq {o : Outcome capacity} {bytes : ByteArray}
    (h : o.Yields bytes.data.toList) : o.bytes = .ok bytes := by
  rw [Outcome.bytes, h.1]
  exact congrArg Except.ok (ext_of_toList h.toList_first)

theorem Outcome.nonemptyBytes_eq_ok_iff {o : Outcome capacity} {bytes : ByteArray} :
    o.nonemptyBytes = .ok bytes ↔ ∃ n, o.result = .ok n ∧ n ≠ 0 ∧ o.buffer.first n = bytes := by
  unfold nonemptyBytes
  cases o.result with
  | error e => simp
  | ok n => cases n <;> simp

theorem Outcome.nonemptyBytes_of_bytes {o : Outcome capacity} {bytes : ByteArray}
    (h : o.bytes = .ok bytes) (hpos : 1 ≤ bytes.size) : o.nonemptyBytes = .ok bytes := by
  unfold Outcome.bytes at h
  rw [nonemptyBytes_eq_ok_iff]
  cases hresult : o.result with
  | error e =>
    rw [hresult] at h
    cases h
  | ok n =>
    rw [hresult] at h
    obtain rfl := Except.ok.inj h
    refine ⟨n, rfl, ?_, rfl⟩
    rintro rfl
    rw [Buffer.size_first _ (Nat.zero_le _)] at hpos
    omega

theorem Outcome.Yields.nonemptyBytes_eq {o : Outcome capacity} {bytes : ByteArray}
    (h : o.Yields bytes.data.toList) (hpos : 1 ≤ bytes.size) : o.nonemptyBytes = .ok bytes :=
  nonemptyBytes_of_bytes h.bytes_eq hpos

/-- All of the bytes are written where there is room for them, and nowhere a part of them. -/
def Outcome.Delivers (o : Outcome capacity) (bytes : List UInt8) : Prop :=
  if bytes.length ≤ capacity then o.Yields bytes else o.result = .error .outputTooSmall

theorem Outcome.delivers_of_le {o : Outcome capacity} {bytes : List UInt8}
    (hroom : bytes.length ≤ capacity) (h : o.Yields bytes) : o.Delivers bytes := by
  rwa [Delivers, if_pos hroom]

theorem Outcome.delivers_of_lt {o : Outcome capacity} {bytes : List UInt8}
    (hroom : capacity < bytes.length) (h : o.result = .error .outputTooSmall) :
    o.Delivers bytes := by
  rwa [Delivers, if_neg (Nat.not_le.2 hroom)]

/-! ## Equal outcomes -/

section Same

variable {m n : Nat} {o : Outcome m} {o' : Outcome n}

theorem Outcome.same_of_yields {bytes : List UInt8} (h : o.Yields bytes) (h' : o'.Yields bytes) :
    o.Same o' := by
  refine ⟨h.1.trans h'.1.symm, ?_⟩
  have hbytes : o.buffer.first bytes.length = o'.buffer.first bytes.length :=
    ext_of_toList (h.toList_first.trans h'.toList_first.symm)
  rw [Outcome.bytes, Outcome.bytes, h.1, h'.1]
  exact congrArg Except.ok hbytes

theorem Outcome.same_of_error {e : BlockError} (h : o.result = .error e)
    (h' : o'.result = .error e) : o.Same o' := by
  refine ⟨h.trans h'.symm, ?_⟩
  rw [bytes, bytes, h, h']
  rfl

theorem Outcome.same_of_delivers {o o' : Outcome m} {bytes : List UInt8} (h : o.Delivers bytes)
    (h' : o'.Delivers bytes) : o.Same o' := by
  unfold Delivers at h h'
  by_cases hroom : bytes.length ≤ m
  · rw [if_pos hroom] at h h'
    exact same_of_yields h h'
  · rw [if_neg hroom] at h h'
    exact same_of_error h h'

theorem Outcome.Same.symm (h : o.Same o') : o'.Same o := ⟨h.1.symm, h.2.symm⟩

theorem Outcome.Same.nonemptyBytes_eq (h : o.Same o') : o.nonemptyBytes = o'.nonemptyBytes := by
  obtain ⟨hresult, hbytes⟩ := h
  unfold bytes at hbytes
  unfold nonemptyBytes
  rw [← hresult] at hbytes ⊢
  cases hr : o.result with
  | error e => rfl
  | ok k =>
    cases k with
    | zero => rfl
    | succ k =>
      rw [hr] at hbytes
      exact congrArg Except.ok (Except.ok.inj hbytes)

end Same

/-! ## Sinks -/

namespace Sink

variable {s s' s'' : Sink capacity} {xs ys bytes : List UInt8}

/-- Between `s` and `s'`, exactly `bytes` were written. -/
def Appends (s s' : Sink capacity) (bytes : List UInt8) : Prop :=
  s'.mark = s.mark + bytes.length ∧ (s'.Fits → s'.written = s.written ++ bytes)

theorem Appends.refl (s : Sink capacity) : s.Appends s [] :=
  ⟨rfl, fun _ => (List.append_nil _).symm⟩

theorem Appends.fits (h : s.Appends s' bytes) (hfits : s'.Fits) : s.Fits := by
  have := h.1
  unfold Fits at *
  omega

theorem Appends.trans (h : s.Appends s' xs) (h' : s'.Appends s'' ys) :
    s.Appends s'' (xs ++ ys) := by
  constructor
  · rw [h'.1, h.1, List.length_append]
    omega
  · intro hfits
    rw [h'.2 hfits, h.2 (h'.fits hfits), List.append_assoc]

theorem appends_push (s : Sink capacity) (value : UInt8) : s.Appends (s.push value) [value] :=
  ⟨rfl, written_push value⟩

theorem appends_pushSlice (s : Sink capacity) {source : ByteArray} {start length : Nat}
    (h : start + length ≤ source.size) :
    s.Appends (s.pushSlice source start length) ((bytesFrom source start).take length) := by
  refine ⟨?_, written_pushSlice h⟩
  rw [List.length_take, length_bytesFrom, Nat.min_eq_left (by omega)]
  rfl

@[simp] theorem mark_ofBuffer (b : Buffer capacity) : (ofBuffer b).mark = 0 := rfl

theorem fits_ofBuffer (b : Buffer capacity) : (ofBuffer b).Fits := Nat.zero_le _

theorem yields_of_fits (h : s.Fits) : Outcome.Yields ⟨.ok s.mark, s.buffer⟩ s.written :=
  ⟨congrArg Except.ok (length_written h).symm, by rw [length_written h, written]⟩

/-- **Success depends on the room only.** -/
theorem Appends.result_finish {b : Buffer capacity} (h : (ofBuffer b).Appends s bytes) :
    s.finish.result =
      if bytes.length ≤ capacity then .ok bytes.length else .error .outputTooSmall := by
  have hm : s.mark = bytes.length := by rw [h.1, mark_ofBuffer, Nat.zero_add]
  simp only [finish, Fits, hm]

theorem Appends.yields_finish {b : Buffer capacity} (h : (ofBuffer b).Appends s bytes)
    (hroom : bytes.length ≤ capacity) : s.finish.Yields bytes := by
  have hm : s.mark = bytes.length := by rw [h.1, mark_ofBuffer, Nat.zero_add]
  have hfits : s.Fits := by rwa [Fits, hm]
  refine ⟨by rw [h.result_finish, if_pos hroom], ?_⟩
  have hw := h.2 hfits
  rwa [written, hm, written_ofBuffer, List.nil_append] at hw

theorem Appends.delivers_finish {b : Buffer capacity} (h : (ofBuffer b).Appends s bytes) :
    s.finish.Delivers bytes := by
  by_cases hroom : bytes.length ≤ capacity
  · exact Outcome.delivers_of_le hroom (h.yields_finish hroom)
  · refine Outcome.delivers_of_lt (Nat.not_le.1 hroom) ?_
    rw [h.result_finish, if_neg hroom]

end Sink

end BlockStream
