import BlockStream.Lz4.Encoder
import BlockStream.Proofs.Lz4.Grammar
import BlockStream.Proofs.Lz4.Matches

/-!
# What the encoder writes

Every match becomes a sequence. `encoded block level` is the block that comes of it, as a list of
sequences; no destination has a part in it.
-/

namespace BlockStream

open Lz4

namespace Sink

variable {capacity : Nat}

theorem appends_pushLength (s : Sink capacity) (n : Nat) :
    s.Appends (s.pushLength n) (lengthBytes n) := by
  fun_induction pushLength s n with
  | case1 s n hlt =>
    rw [lengthBytes_of_lt hlt]
    exact appends_push ..
  | case2 s n hge ih =>
    rw [show n = n - 255 + 255 by omega, lengthBytes_add, Nat.add_sub_cancel]
    exact (appends_push s 255).trans ih

theorem appends_lengthTail (s : Sink capacity) (n : Nat) :
    s.Appends (if n < fieldMax then s else s.pushLength (n - fieldMax)) (lengthTail n) := by
  by_cases hshort : n < fieldMax
  · rw [lengthTail, if_pos hshort, if_pos hshort]
    exact Appends.refl s
  · rw [lengthTail, if_neg hshort, if_neg hshort]
    exact appends_pushLength ..

theorem appends_pushLiterals (s : Sink capacity) {block : ByteArray} {start length : Nat}
    (h : start + length ≤ block.size) (excess : Nat) :
    s.Appends (s.pushLiterals block start length excess)
      (literalBytes ((bytesFrom block start).take length) excess) := by
  have hlen : ((bytesFrom block start).take length).length = length := by
    rw [List.length_take, length_bytesFrom]
    omega
  rw [literalBytes, hlen]
  exact ((appends_push ..).trans (appends_lengthTail ..)).trans (appends_pushSlice _ h)

theorem appends_pushReference (s : Sink capacity) (distance excess : Nat) :
    s.Appends (s.pushReference distance excess) (referenceBytes distance excess) :=
  ((appends_push ..).trans (appends_push ..)).trans (appends_lengthTail ..)

end Sink

namespace Lz4

variable {block : ByteArray} {capacity anchor : Nat} {m : Match} {ms : List Match}

/-! ## The sequences of matches -/

/-- The sequence of a match: its literals begin at `anchor`. -/
def Match.toSequence (block : ByteArray) (anchor : Nat) (m : Match) : Sequence :=
  ⟨(bytesFrom block anchor).take (m.start - anchor), m.distance, m.length⟩

/-- The sequences of matches, the first of which has its literals from `anchor` on. -/
def sequencesFrom (block : ByteArray) : (anchor : Nat) → List Match → List Sequence
  | _, [] => []
  | anchor, m :: rest => m.toSequence block anchor :: sequencesFrom block m.stop rest

/-- The position after the last of the matches. -/
def anchorAfter : (anchor : Nat) → List Match → Nat
  | anchor, [] => anchor
  | _, m :: rest => anchorAfter m.stop rest

/-- The matches of an array with all bytes between them. -/
def Block.ofMatches (block : ByteArray) (ms : List Match) : Block :=
  ⟨sequencesFrom block 0 ms, bytesFrom block (anchorAfter 0 ms), 0⟩

theorem Match.Sound.length_literals (h : m.Sound block anchor) :
    (m.toSequence block anchor).literals.length = m.start - anchor := by
  have := h.anchor_le
  have := h.start_le
  rw [Match.toSequence, List.length_take, length_bytesFrom]
  omega

theorem Match.Sound.size_toSequence (h : m.Sound block anchor) :
    anchor + (m.toSequence block anchor).size = m.stop := by
  have := h.anchor_le
  rw [Sequence.size, h.length_literals]
  simp only [toSequence, Match.stop]
  omega

theorem Match.Sound.valid_toSequence (h : m.Sound block anchor) :
    (m.toSequence block anchor).Valid anchor := by
  have := h.anchor_le
  refine ⟨h.minMatch_le, h.one_le, h.distance_le, ?_⟩
  rw [h.length_literals, Nat.add_sub_cancel' h.anchor_le]
  exact h.distance_le_start

/-- **The sequence of a sound match decodes to the bytes that it was made of.** -/
theorem Match.Sound.decoded_toSequence (h : m.Sound block anchor) :
    (m.toSequence block anchor).decoded (block.data.toList.take anchor) =
      block.data.toList.take m.stop := by
  have hstop := h.stop_le
  have hlits : block.data.toList.take anchor ++ (bytesFrom block anchor).take (m.start - anchor) =
      block.data.toList.take m.start := by
    rw [bytesFrom, ← List.take_add, Nat.add_sub_cancel' h.anchor_le]
  simp only [Sequence.decoded, toSequence, hlits]
  apply copyBack_take h.one_le h.distance_le_start (Nat.le_of_add_right_le hstop)
  intro i hi
  rw [← byteAt_eq_getD, ← byteAt_eq_getD]
  exact h.agree _ (Nat.le_add_right ..) (Nat.add_lt_add_left hi _)

theorem anchorAfter_le (h : SoundFrom block anchor ms) (hanchor : anchor ≤ block.size) :
    anchorAfter anchor ms ≤ block.size := by
  induction ms generalizing anchor with
  | nil => exact hanchor
  | cons m ms ih => exact ih h.2 (Nat.le_of_add_right_le h.1.stop_le)

theorem everySequence_of_everyMatch {q : Nat → Match → Prop} {p : Nat → Sequence → Prop}
    (hq : ∀ anchor (m : Match), q anchor m →
      m.Sound block anchor ∧ p anchor (m.toSequence block anchor))
    (h : EveryMatch q anchor ms) : EverySequence p anchor (sequencesFrom block anchor ms) := by
  induction ms generalizing anchor with
  | nil => trivial
  | cons m ms ih =>
    obtain ⟨hsound, hp⟩ := hq anchor m h.1
    refine ⟨hp, ?_⟩
    rw [hsound.size_toSequence]
    exact ih h.2

theorem everySequence_sequencesFrom {p : Nat → Sequence → Prop}
    (hp : ∀ anchor (m : Match), m.Sound block anchor → p anchor (m.toSequence block anchor))
    (h : SoundFrom block anchor ms) : EverySequence p anchor (sequencesFrom block anchor ms) :=
  everySequence_of_everyMatch (fun anchor m hm => ⟨hm, hp anchor m hm⟩) (soundFrom_iff.1 h)

theorem valid_sequencesFrom (h : SoundFrom block anchor ms) :
    EverySequence Sequence.Valid anchor (sequencesFrom block anchor ms) :=
  everySequence_sequencesFrom (fun _ _ hm => hm.valid_toSequence) h

theorem foldl_decoded_sequencesFrom (h : SoundFrom block anchor ms) :
    (sequencesFrom block anchor ms).foldl Sequence.decoded (block.data.toList.take anchor) =
      block.data.toList.take (anchorAfter anchor ms) := by
  induction ms generalizing anchor with
  | nil => rfl
  | cons m ms ih =>
    rw [sequencesFrom, List.foldl_cons, h.1.decoded_toSequence, ih h.2]
    rfl

theorem valid_ofMatches (h : SoundFrom block 0 ms) : (Block.ofMatches block ms).Valid :=
  ⟨valid_sequencesFrom h, Nat.zero_le _⟩

theorem decoded_ofMatches (h : SoundFrom block 0 ms) :
    (Block.ofMatches block ms).decoded = block.data.toList := by
  have hfold := foldl_decoded_sequencesFrom h
  rw [List.take_zero] at hfold
  rw [Block.decoded, Block.ofMatches, hfold]
  exact List.take_append_drop ..

/-! ## The encoder -/

namespace Encoder

variable {e : Encoder capacity}

theorem appends_push (h : m.Sound block e.anchor) :
    e.out.Appends (push block e m).out (m.toSequence block e.anchor).toBytes := by
  have := h.anchor_le
  have := h.start_le
  exact (Sink.appends_pushLiterals e.out (by omega) _).trans (Sink.appends_pushReference ..)

theorem anchor_foldl_push (block : ByteArray) (e : Encoder capacity) (ms : List Match) :
    (ms.foldl (push block) e).anchor = anchorAfter e.anchor ms := by
  induction ms generalizing e with
  | nil => rfl
  | cons m ms ih => exact ih _

theorem appends_foldl_push (h : SoundFrom block e.anchor ms) :
    e.out.Appends (ms.foldl (push block) e).out
      ((sequencesFrom block e.anchor ms).flatMap Sequence.toBytes) := by
  induction ms generalizing e with
  | nil => exact Sink.Appends.refl _
  | cons m ms ih =>
    rw [sequencesFrom, List.flatMap_cons, List.foldl_cons]
    exact (appends_push h.1).trans (ih (e := push block e m) h.2)

end Encoder

/-- **The encoder writes the sequences of its matches.** -/
theorem appends_encode {matched : Array Match} (h : SoundFrom block 0 matched.toList)
    (out : Sink capacity) :
    out.Appends (encode block matched out) (Block.ofMatches block matched.toList).toBytes := by
  let e : Encoder capacity := matched.toList.foldl (Encoder.push block) ⟨0, out⟩
  have he : encode block matched out = e.finish block := by
    rw [encode, ← Array.foldl_toList]
  have hanchor : e.anchor = anchorAfter 0 matched.toList := Encoder.anchor_foldl_push ..
  have hle := anchorAfter_le h (Nat.zero_le _)
  have hlast : (bytesFrom block e.anchor).take (block.size - e.anchor) =
      bytesFrom block (anchorAfter 0 matched.toList) := by
    rw [← length_bytesFrom, List.take_length, hanchor]
  have hend : e.anchor + (block.size - e.anchor) ≤ block.size := by omega
  have hfinish := e.out.appends_pushLiterals hend 0
  rw [hlast] at hfinish
  rw [he]
  exact (Encoder.appends_foldl_push (e := ⟨0, out⟩) h).trans hfinish

/-! ## Compressed blocks -/

/-- The block that the encoder writes for an array at a level. -/
def encoded (block : ByteArray) (level : Int32) : Block :=
  Block.ofMatches block (findMatches block (.ofLevel level)).toList

theorem valid_encoded (block : ByteArray) (level : Int32) : (encoded block level).Valid :=
  valid_ofMatches (sound_findMatches ..)

@[simp] theorem decoded_encoded (block : ByteArray) (level : Int32) :
    (encoded block level).decoded = block.data.toList :=
  decoded_ofMatches (sound_findMatches ..)

@[simp] theorem size_encoded (block : ByteArray) (level : Int32) :
    (encoded block level).size = block.size := by
  rw [← Block.length_decoded, decoded_encoded, length_toList_data]

variable {level : Int32}

/-- **An array that is not too large is encoded whenever there is room for it.** -/
theorem result_compressInto (h : block.size ≤ maxInput) (dst : Buffer capacity) :
    (compressInto block level dst).result =
      if (encoded block level).toBytes.length ≤ capacity then
        .ok (encoded block level).toBytes.length
      else .error .outputTooSmall := by
  rw [compressInto, if_neg (Nat.not_lt.2 h)]
  exact (appends_encode (sound_findMatches ..) _).result_finish

theorem delivers_compressInto (h : block.size ≤ maxInput) (level : Int32) (dst : Buffer capacity) :
    (compressInto block level dst).Delivers (encoded block level).toBytes := by
  rw [compressInto, if_neg (Nat.not_lt.2 h)]
  exact (appends_encode (sound_findMatches ..) _).delivers_finish

theorem yields_compressInto {n : Nat} {dst : Buffer capacity}
    (h : (compressInto block level dst).result = .ok n) :
    (compressInto block level dst).Yields (encoded block level).toBytes := by
  by_cases hsize : block.size ≤ maxInput
  · rw [result_compressInto hsize] at h
    by_cases hroom : (encoded block level).toBytes.length ≤ capacity
    · rw [compressInto, if_neg (Nat.not_lt.2 hsize)]
      exact (appends_encode (sound_findMatches ..) _).yields_finish hroom
    · rw [if_neg hroom] at h
      cases h
  · rw [compressInto, if_pos (Nat.not_le.1 hsize)] at h
    cases h

end Lz4

end BlockStream
