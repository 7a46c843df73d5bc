import BlockStream.Proofs.Lz4.Encoding
import BlockStream.Proofs.Lz4.Overflow

/-!
# Long lengths

A number has one run of bytes, the run ends where its reader does, and no other bytes are read as
this number, also at the multiples of 255 (**`readRun_undoes_pushLength`**).
-/

namespace BlockStream.Lz4

variable {block : ByteArray} {capacity pos total : Nat}

/-! ## Runs that end -/

/-- **The run of a number is read among any other bytes.** -/
theorem readRun_of_toList {n : Nat} {before after : List UInt8}
    (h : block.data.toList = before ++ lengthBytes n ++ after) :
    readRun block before.length 0 = some ⟨n, before.length + (lengthBytes n).length⟩ :=
  readRun_eq_some_iff.2 ⟨n, (Nat.zero_add n).symm, segment_of_toList h⟩

/-- **The bytes that were read are the run of the number.** -/
theorem toList_extract_of_readRun {r : Reading} (h : readRun block pos 0 = some r) :
    (block.extract pos r.stop).data.toList = lengthBytes r.value := by
  obtain ⟨n, hvalue, hseg⟩ := readRun_eq_some_iff.1 h
  rw [hvalue, Nat.zero_add]
  exact hseg.toList_extract

/-! ## Runs without an end -/

/-- **A run cannot be read exactly if nothing but full bytes follows.** -/
theorem readRun_eq_none_iff :
    readRun block pos total = none ↔ ∀ p, pos ≤ p → p < block.size → byteAt block p = 255 := by
  fun_induction readRun block pos total with
  | case1 pos total hpos byte full ih =>
    rw [ih]
    constructor
    · intro hrest p hp hsize
      obtain rfl | hlt := Nat.eq_or_lt_of_le hp
      · rw [byteAt_of_lt hsize]
        exact full
      · exact hrest p hlt hsize
    · intro hall p hp hsize
      exact hall p (Nat.le_of_succ_le hp) hsize
  | case2 pos total hpos byte small =>
    constructor
    · intro h
      cases h
    · intro hall
      have hfull := hall pos (Nat.le_refl pos) hpos
      rw [byteAt_of_lt hpos] at hfull
      exact absurd hfull small
  | case3 pos total hpos =>
    refine ⟨fun _ p hp hsize => ?_, fun _ => rfl⟩
    exact absurd (Nat.lt_of_le_of_lt hp hsize) hpos

theorem readLength_of_unended (h : readRun block pos 0 = none) :
    readLength block fieldMax pos = none := by
  rw [readLength, if_pos rfl, readRun_eq_none_iff]
  exact readRun_eq_none_iff.1 h

theorem readReference_of_unended (h : readRun block (pos + 2) 0 = none) (decoded : Nat) :
    readReference block fieldMax pos decoded = none := by
  unfold readReference
  cases word16? block pos with
  | none => rfl
  | some distance => simp only [readLength_of_unended h, ite_self]

namespace Decoder

variable {d : Decoder capacity}

/-- The sequence ahead of a decoder has a length whose run does not end. -/
inductive Unended (block : ByteArray) (d : Decoder capacity) : Prop where
  /-- It is the number of the literals. -/
  | literals (inside : d.pos < block.size) (full : literalField block[d.pos] = fieldMax)
      (unread : readRun block (d.pos + 1) 0 = none)
  /-- It is the length of the match, behind literals that fit. -/
  | reference (l : Literals) (found : readLiterals block d.pos = some l)
      (room : l.length ≤ d.out.room) (more : l.stop ≠ block.size) (full : l.field = fieldMax)
      (unread : readRun block (l.stop + 2) 0 = none)

theorem Unended.step (h : d.Unended block) :
    ∃ out, d.step block = .done (.error .malformedInput) out := by
  cases h with
  | literals inside full unread =>
    have hnone : readLiterals block d.pos = none := by
      rw [readLiterals, dif_pos inside]
      simp only [full, readLength_of_unended unread]
    exact ⟨d.out, by simp only [Decoder.step, hnone]⟩
  | reference l found room more full unread =>
    refine ⟨d.out.pushSlice block l.start l.length, ?_⟩
    simp only [Decoder.step, found, if_neg (Nat.not_lt.2 room), if_neg more, full,
      readReference_of_unended unread]

/-- **A run without an end makes the block malformed.** -/
theorem Unended.run (h : d.Unended block) :
    (Decoder.run block d).result = .error .malformedInput := by
  obtain ⟨out, hstep⟩ := h.step
  rw [run_of_done hstep]
  rfl

end Decoder

/-- **Long lengths are written and read in one way.** A sink writes the run of a number, and it is
read among any other bytes, up to its last byte. Whenever a number is read, the bytes that it took
are those that a sink writes for it. Nothing is read exactly if all bytes that are left are full,
and a block with such a length is malformed. On words the reader does the same, but for a number
that is no word: nothing is read there either. -/
theorem readRun_undoes_pushLength :
    (∀ {capacity : Nat} (s : Sink capacity) (n : Nat), s.Appends (s.pushLength n) (lengthBytes n)) ∧
    (∀ (block : ByteArray) (n : Nat) (before after : List UInt8),
      block.data.toList = before ++ lengthBytes n ++ after →
        readRun block before.length 0 = some ⟨n, before.length + (lengthBytes n).length⟩) ∧
    (∀ (block : ByteArray) (pos : Nat) (r : Reading), readRun block pos 0 = some r →
      pos < r.stop ∧ r.stop ≤ block.size ∧
        (block.extract pos r.stop).data.toList = lengthBytes r.value) ∧
    (∀ (block : ByteArray) (pos : Nat),
      readRun block pos 0 = none ↔ ∀ p, pos ≤ p → p < block.size → byteAt block p = 255) ∧
    (∀ {capacity : Nat} (block : ByteArray) (d : Decoder capacity), d.Unended block →
      (Decoder.run block d).result = .error .malformedInput) ∧
    ∀ (limit : Nat) (block : ByteArray) (pos : Nat), block.size < limit →
      Checked.readRun (.below limit) block (block.size + 1) pos 0 =
        pure ((readRun block pos 0).filter (·.value < limit)) := by
  refine ⟨fun s n => s.appends_pushLength n, fun block n before after h => readRun_of_toList h,
    fun block pos r h => ?_, fun block pos => readRun_eq_none_iff, fun block d h => h.run,
    fun limit block pos h => ?_⟩
  · obtain ⟨hlt, hle⟩ := pos_lt_of_readRun h
    exact ⟨hlt, hle, toList_extract_of_readRun h⟩
  · have hblock : (Words.below limit).Has block.size := h
    exact Checked.readRun_eq hblock (Nat.lt_succ_of_le (Nat.sub_le ..))

/-- A multiple of 255 ends with a zero, and full bytes up to the end of a block state no number. -/
theorem readRun_undoes_pushLength_full :
    readRun ⟨#[7, 255, 255, 0, 9]⟩ 1 0 = some ⟨510, 4⟩ ∧
      (decompressInto ⟨#[240, 255, 255, 255]⟩ (Buffer.zeros 2048)).result =
        .error .malformedInput := by
  obtain ⟨-, hread, -, hnone, hmalformed, -⟩ := readRun_undoes_pushLength
  refine ⟨hread ⟨#[7, 255, 255, 0, 9]⟩ 510 [7] [9] (by decide), ?_⟩
  apply hmalformed _ ⟨0, Sink.ofBuffer _⟩
  apply Decoder.Unended.literals (by decide) (by decide)
  rw [hnone]
  intro p hp hsize
  have hsize4 : p < 4 := hsize
  obtain rfl | rfl | rfl : p = 1 ∨ p = 2 ∨ p = 3 := by omega
  all_goals rfl

end BlockStream.Lz4
