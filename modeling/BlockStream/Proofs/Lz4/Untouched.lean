import BlockStream.Proofs.Lz4.Encoding

/-! # What stands behind a block -/

namespace BlockStream

open Lz4

variable {capacity : Nat}

theorem Buffer.drop_blit (b : Buffer capacity) (target : Nat) (source : ByteArray)
    (start length : Nat) :
    (b.blit target source start length).toList.drop (target + length) =
      b.toList.drop (target + length) := by
  by_cases h : target + length ≤ b.bytes.size ∧ start + length ≤ source.size
  · have htarget : target + length ≤ capacity := b.size_eq ▸ h.1
    rw [toList_blit b htarget h.2]
    exact List.drop_left' (b.length_front_blit htarget h.2)
  · rw [blit, dif_neg h]

namespace Sink

variable {s s' s'' : Sink capacity}

/-- From `s` to `s'`, nothing was written behind the mark of `s'`. -/
structure Spares (s s' : Sink capacity) : Prop where
  mark_le : s.mark ≤ s'.mark
  drop_eq : s'.buffer.toList.drop s'.mark = s.buffer.toList.drop s'.mark

theorem Spares.refl (s : Sink capacity) : s.Spares s := ⟨Nat.le_refl _, rfl⟩

theorem Spares.trans (h : s.Spares s') (h' : s'.Spares s'') : s.Spares s'' where
  mark_le := Nat.le_trans h.mark_le h'.mark_le
  drop_eq := by
    have hdrop := congrArg (List.drop (s''.mark - s'.mark)) h.drop_eq
    rw [List.drop_drop, List.drop_drop, Nat.add_sub_cancel' h'.mark_le] at hdrop
    exact h'.drop_eq.trans hdrop

theorem spares_push (s : Sink capacity) (value : UInt8) : s.Spares (s.push value) where
  mark_le := Nat.le_succ _
  drop_eq := by
    simp only [push, Buffer.toList_set]
    exact List.drop_set_of_lt (Nat.lt_succ_self _)

theorem spares_pushSlice (s : Sink capacity) (source : ByteArray) (start length : Nat) :
    s.Spares (s.pushSlice source start length) where
  mark_le := Nat.le_add_right ..
  drop_eq := Buffer.drop_blit ..

theorem spares_pushLength (s : Sink capacity) (n : Nat) : s.Spares (s.pushLength n) := by
  fun_induction pushLength s n with
  | case1 => exact spares_push ..
  | case2 s n hge ih => exact (spares_push s 255).trans ih

theorem spares_lengthTail (s : Sink capacity) (n : Nat) :
    s.Spares (if n < fieldMax then s else s.pushLength (n - fieldMax)) := by
  split
  · exact Spares.refl s
  · exact spares_pushLength ..

theorem spares_pushLiterals (s : Sink capacity) (block : ByteArray) (start length excess : Nat) :
    s.Spares (s.pushLiterals block start length excess) :=
  ((spares_push ..).trans (spares_lengthTail ..)).trans (spares_pushSlice ..)

theorem spares_pushReference (s : Sink capacity) (distance excess : Nat) :
    s.Spares (s.pushReference distance excess) :=
  ((spares_push ..).trans (spares_push ..)).trans (spares_lengthTail ..)

end Sink

namespace Lz4

theorem Encoder.spares_foldl_push (block : ByteArray) (e : Encoder capacity) (ms : List Match) :
    e.out.Spares (ms.foldl (push block) e).out := by
  induction ms generalizing e with
  | nil => exact Sink.Spares.refl _
  | cons m ms ih =>
    have hpush : e.out.Spares (push block e m).out :=
      (Sink.spares_pushLiterals ..).trans (Sink.spares_pushReference ..)
    exact hpush.trans (ih _)

theorem spares_encode (block : ByteArray) (matched : Array Match) (out : Sink capacity) :
    out.Spares (encode block matched out) := by
  rw [encode, ← Array.foldl_toList]
  exact (Encoder.spares_foldl_push block ⟨0, out⟩ _).trans (Sink.spares_pushLiterals ..)

/-- **Behind the block, the destination is as it was.** -/
theorem drop_compressInto {block : ByteArray} {level : Int32} {n : Nat} {dst : Buffer capacity}
    (h : (compressInto block level dst).result = .ok n) :
    (compressInto block level dst).buffer.toList.drop n = dst.toList.drop n := by
  rw [compressInto] at h ⊢
  split at h
  · cases h
  · next hsize =>
    rw [if_neg hsize]
    have hspares := spares_encode block (findMatches block (.ofLevel level)) (Sink.ofBuffer dst)
    simp only [Sink.finish] at h
    split at h
    · obtain rfl := Except.ok.inj h
      exact hspares.drop_eq
    · cases h

theorem toList_compressInto {block : ByteArray} {level : Int32} {dst : Buffer capacity}
    {bytes : List UInt8} (h : (compressInto block level dst).Yields bytes) :
    (compressInto block level dst).buffer.toList = bytes ++ dst.toList.drop bytes.length := by
  have hsplit := List.take_append_drop bytes.length (compressInto block level dst).buffer.toList
  rw [h.2, drop_compressInto h.1] at hsplit
  exact hsplit.symm

end Lz4

end BlockStream
