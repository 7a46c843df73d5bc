import BlockStream.Proofs.Lz4.Safety

/-!
# When words are too small for a block

A run of bytes is added up with a look at every sum, but the field of the token and the shortest
match are added to its number without one.
-/

namespace BlockStream.Checked

open Lz4

variable {words : Words} {block : ByteArray} {capacity limit : Nat} {dst : Buffer capacity}

/-- **A block that can be decoded is decoded on words too.** -/
theorem decompressInto_of_ok (hmax : words.Has (fieldMax + minMatch))
    (hsize : words.Has (block.size + capacity)) {n : Nat}
    (h : (Lz4.decompressInto block dst).result = .ok n) :
    decompressInto words block dst = pure (Lz4.decompressInto block dst) := by
  obtain hsame | ⟨o, -, -, hsmall, -⟩ | ⟨-, -, e, herror⟩ := ends_decompressInto hmax hsize dst
  · exact hsame
  · cases h.symm.trans hsmall
  · cases h.symm.trans herror

theorem Brims.not_has (h : Brims words block) :
    ¬ words.Has (255 * block.size + fieldMax + minMatch) := by
  obtain ⟨pos, stop, n, hseg, -, hlarge⟩ := h
  have hpos : pos < block.size := (segment_lengthBytes_iff.1 hseg).1
  have hstop := hseg.stop_le (Nat.le_of_lt hpos)
  have hlength := hseg.1
  rw [length_lengthBytes] at hlength
  exact fun hhas => hlarge (hhas.mono (by omega))

/-- **Words make no difference in a block that is short** for their size. -/
theorem decompressInto_of_short
    (h : words.Has (255 * block.size + fieldMax + minMatch + capacity)) (dst : Buffer capacity) :
    decompressInto words block dst = pure (Lz4.decompressInto block dst) := by
  have hmax : words.Has (fieldMax + minMatch) := h.mono (by omega)
  have hsize : words.Has (block.size + capacity) := h.mono (by omega)
  obtain hsame | ⟨o, -, -, -, hlarge⟩ | ⟨-, hbrims, -⟩ := ends_decompressInto hmax hsize dst
  · exact hsame
  · exact absurd h hlarge
  · exact absurd (h.mono (Nat.le_add_right ..)) hbrims.not_has

/-! ## Blocks that brim -/

/-- Literals whose number is the largest word with a full field added to it. -/
def brimming (limit : Nat) : ByteArray :=
  ⟨(token fieldMax 0 :: lengthBytes (limit - 1)).toArray⟩

@[simp] theorem size_brimming (limit : Nat) : (brimming limit).size = (limit - 1) / 255 + 2 := by
  rw [← length_toList_data, brimming, List.toList_toArray, List.length_cons, length_lengthBytes]

theorem has_size_brimming (hlimit : fieldMax < limit) :
    (Words.below limit).Has (brimming limit).size := by
  show (brimming limit).size < limit
  unfold fieldMax at hlimit
  rw [size_brimming]
  omega

theorem readLiterals_brimming (hlimit : fieldMax < limit) :
    readLiterals (.below limit) (brimming limit) 0 = throw .overflow := by
  have hblock := has_size_brimming hlimit
  have hseg : Segment (brimming limit) 0 (brimming limit).size
      (token fieldMax 0 :: lengthBytes (limit - 1)) := segment_zero_iff.2 rfl
  obtain ⟨hpos, htoken, hrun⟩ := segment_cons_iff.1 hseg
  have hread : Lz4.readRun (brimming limit) (0 + 1) 0 = some ⟨limit - 1, (brimming limit).size⟩ :=
    readRun_eq_some_iff.2 ⟨limit - 1, (Nat.zero_add _).symm, hrun⟩
  have hword : (Words.below limit).Has (limit - 1) := Nat.sub_one_lt (by omega)
  have hsum : ¬ (Words.below limit).Has (fieldMax + (limit - 1)) := by
    show ¬ fieldMax + (limit - 1) < limit
    unfold fieldMax
    omega
  have hlength : readLength (.below limit) (brimming limit) fieldMax (0 + 1) = throw .overflow := by
    rw [readLength, if_pos rfl, readRun_eq hblock (by omega), hread, below_some, if_pos hword,
      pure_bind]
    dsimp only
    rw [add_of_not_has hsum]
    rfl
  rw [readLiterals, byte_of_lt hpos, pure_bind, add_of_has (hblock.mono hpos), pure_bind,
    byteAt_of_lt hpos, htoken, literalField_token, Nat.min_self, hlength]
  rfl

/-- **On words of every size, some block is a fault.** It takes a 255th of the limit, and on numbers
it is malformed. -/
theorem decompressInto_brimming (hlimit : fieldMax < limit) (dst : Buffer capacity) :
    decompressInto (.below limit) (brimming limit) dst = throw .overflow ∧
      (Lz4.decompressInto (brimming limit) dst).result = .error .malformedInput := by
  have hthrow := readLiterals_brimming hlimit
  have hpos : 0 < (brimming limit).size := by
    rw [size_brimming]
    omega
  constructor
  · obtain ⟨rounds, hrounds⟩ := Nat.exists_eq_add_one_of_ne_zero (Nat.ne_of_gt hpos)
    have hstep : step (.below limit) (brimming limit) ⟨0, Sink.ofBuffer dst⟩ = throw .overflow := by
      rw [step, hthrow]
      rfl
    rw [decompressInto, if_neg (Nat.ne_of_gt hpos), hrounds, run, hstep]
    rfl
  · obtain hread | ⟨-, -, hnone⟩ := readLiterals_cases (has_size_brimming hlimit) hlimit hpos
    · cases hthrow.symm.trans hread
    · have hstep : Decoder.step (brimming limit) ⟨0, Sink.ofBuffer dst⟩ =
          .done (.error .malformedInput) (Sink.ofBuffer dst) := by
        rw [Decoder.step, hnone]
      rw [Lz4.decompressInto, Decoder.run_of_done hstep]
      rfl

end BlockStream.Checked
