import BlockStream.Proofs.Lz4.RoundTrip

/-!
# What encoders keep to

Decoders may read and write a few bytes at a time, because no match comes near the end of a block.
The decoder here needs no such promise, so it is stated of the encoder.
-/

namespace BlockStream.Lz4

variable {block : ByteArray} {capacity anchor size pos : Nat} {m : Match} {b : Block}

/-! ## Restricted blocks -/

/-- The end of the last match, from the restriction on each. -/
theorem totalSize_le {ss : List Sequence} (h : EverySequence (Sequence.Restricted size) pos ss)
    (hne : ss ≠ []) : pos + totalSize ss + lastLiterals ≤ size := by
  induction ss generalizing pos with
  | nil => exact absurd rfl hne
  | cons s ss ih =>
    obtain ⟨⟨-, hstop⟩, hrest⟩ := h
    rw [totalSize]
    cases ss with
    | nil => exact hstop
    | cons s' ss' =>
      have := ih hrest (List.cons_ne_nil _ _)
      omega

theorem Block.Restricted.lastLiterals_le (h : b.Restricted) (hne : b.sequences ≠ []) :
    lastLiterals ≤ b.last.length := by
  have hstop := totalSize_le h.2.1 hne
  rw [Block.size] at hstop
  omega

/-- The first match refers back to at least one byte, and keeps away from the end. -/
theorem Block.Restricted.sequences_eq_nil (h : b.Restricted) (hsize : b.size < minInput) :
    b.sequences = [] := by
  obtain ⟨⟨hvalid, -⟩, hrestricted, -⟩ := h
  cases hss : b.sequences with
  | nil => rfl
  | cons s ss =>
    rw [hss] at hvalid hrestricted
    obtain ⟨⟨-, hone, -, hback⟩, -⟩ := hvalid
    obtain ⟨⟨hstart, -⟩, -⟩ := hrestricted
    unfold minInput at hsize
    omega

/-! ## The encoder -/

theorem Match.Sound.restricted_toSequence (h : m.Sound block anchor) :
    (m.toSequence block anchor).Restricted block.size anchor := by
  constructor
  · rw [h.length_literals, Nat.add_sub_cancel' h.anchor_le]
    exact h.start_le
  · rw [h.size_toSequence]
    exact h.stop_le

theorem restricted_encoded (block : ByteArray) (level : Int32) :
    (encoded block level).Restricted := by
  refine ⟨valid_encoded block level, ?_, rfl⟩
  rw [size_encoded]
  exact everySequence_sequencesFrom (fun _ _ hm => hm.restricted_toSequence)
    (sound_findMatches ..)

/-- **Every block that the encoder writes is restricted.** Its sequences stand for the bytes that
were encoded, so positions in them are positions in these bytes. -/
theorem exists_restricted_of_compressInto {level : Int32} {n : Nat} {dst : Buffer capacity}
    (h : (compressInto block level dst).result = .ok n) :
    ∃ b : Block, b.toBytes = ((compressInto block level dst).buffer.first n).data.toList ∧
      b.decoded = block.data.toList ∧ b.size = block.size ∧ b.Restricted ∧
      (b.sequences ≠ [] → lastLiterals ≤ b.last.length) ∧
      (block.size < minInput → b.sequences = []) := by
  have hb := restricted_encoded block level
  refine ⟨encoded block level, (toList_first_compressInto h).symm, decoded_encoded block level,
    size_encoded block level, hb, hb.lastLiterals_le, ?_⟩
  intro hsize
  exact hb.sequences_eq_nil (by rwa [size_encoded])

theorem exists_restricted_of_compressInto_zeros :
    (compressInto (zeros 13) 1 (Buffer.zeros 10)).result = .ok 10 ∧
      ∃ b : Block,
        b.toBytes = ((compressInto (zeros 13) 1 (Buffer.zeros 10)).buffer.first 10).data.toList ∧
          b.size = 13 ∧ b.Restricted ∧ (b.sequences ≠ [] → lastLiterals ≤ b.last.length) := by
  have hrun : (compressInto (zeros 13) 1 (Buffer.zeros 10)).result = .ok 10 := by decide +kernel
  obtain ⟨b, hbytes, -, hsize, hb, hlast, -⟩ := exists_restricted_of_compressInto hrun
  exact ⟨hrun, b, hbytes, hsize.trans (size_zeros 13), hb, hlast⟩

end BlockStream.Lz4
