import BlockStream.Proofs.Lz4.EncoderSafety
import BlockStream.Proofs.Lz4.Safety
import BlockStream.Proofs.Lz4.Stability

/-!
# Destinations of every size

What a block is decoded into and what an array is encoded into does not depend on the destination;
its size only says whether there is room, and no operation writes a part of its result.
-/

namespace BlockStream

open Lz4

variable {block : ByteArray} {capacity room : Nat}

namespace Lz4

/-! ## Decoding -/

theorem result_decompressInto_of_le (block : ByteArray) (hle : capacity ≤ room)
    (dst : Buffer capacity) (out : Buffer room) :
    (decompressInto block dst).result = .error .outputTooSmall ∨
      (decompressInto block dst).result = (decompressInto block out).result :=
  (Decoder.same_run_of_le block hle rfl (Sink.agrees_ofBuffer dst out)).imp_right And.left

/-- **What is decoded once is decoded everywhere**, as far as there is room. -/
theorem delivers_decompressInto {n : Nat} {dst : Buffer capacity}
    (h : (decompressInto block dst).result = .ok n) :
    ∃ bytes : List UInt8, bytes.length = n ∧ (decompressInto block dst).Yields bytes ∧
      ∀ {room : Nat} (out : Buffer room), (decompressInto block out).Delivers bytes := by
  obtain ⟨b, hbytes, hvalid, hfits⟩ := valid_of_decompressInto h
  have hy := yields_decompressInto hbytes hvalid dst hfits
  refine ⟨b.decoded, (Except.ok.inj (h.symm.trans hy.1)).symm, hy, fun {room} out => ?_⟩
  by_cases hroom : b.size ≤ room
  · exact Outcome.delivers_of_le (b.length_decoded ▸ hroom)
      (yields_decompressInto hbytes hvalid out hroom)
  · refine Outcome.delivers_of_lt (b.length_decoded ▸ Nat.not_le.1 hroom) ?_
    -- A smaller destination could only come to the same end, and it would then hold all bytes.
    refine (result_decompressInto_of_le block (by omega) out dst).resolve_right fun heq => hroom ?_
    have hle := le_capacity_of_decompressInto (heq.trans hy.1)
    rwa [b.length_decoded] at hle

/-- **Destinations of every size.** If a block is decoded somewhere, then wherever there is room for
its bytes it is decoded into the same bytes, and elsewhere the destination is too small. If it is
malformed for some destination, then it is malformed for every larger one too, and decoded nowhere.
There is no third way to fail. -/
theorem decompressInto_capacity (block : ByteArray) :
    (∀ {capacity : Nat} (dst : Buffer capacity) (n : Nat),
      (decompressInto block dst).result = .ok n →
        ∃ bytes : List UInt8, bytes.length = n ∧ (decompressInto block dst).Yields bytes ∧
          ∀ {room : Nat} (out : Buffer room), (decompressInto block out).Delivers bytes) ∧
    (∀ {capacity : Nat} (dst : Buffer capacity),
      (decompressInto block dst).result = .error .malformedInput →
        ∀ {room : Nat} (out : Buffer room),
          (capacity ≤ room → (decompressInto block out).result = .error .malformedInput) ∧
            ∀ n, (decompressInto block out).result ≠ .ok n) ∧
    ∀ {capacity : Nat} (dst : Buffer capacity),
      (decompressInto block dst).result ≠ .error .inputTooLarge ∧
        (decompressInto block dst).result ≠ .error .emptyOutput := by
  refine ⟨fun dst n h => delivers_decompressInto h, fun {capacity} dst h room out => ⟨?_, ?_⟩,
    fun dst => ⟨?_, ?_⟩⟩
  · intro hle
    obtain hsmall | heq := result_decompressInto_of_le block hle dst out
    · cases h.symm.trans hsmall
    · exact heq.symm.trans h
  · intro n hn
    obtain ⟨bytes, -, -, hdelivers⟩ := delivers_decompressInto hn
    have hdst := hdelivers dst
    unfold Outcome.Delivers at hdst
    split at hdst
    · cases h.symm.trans hdst.1
    · cases h.symm.trans hdst
  · intro h
    obtain h | h := Decoder.error_of_run h <;> cases h
  · intro h
    obtain h | h := Decoder.error_of_run h <;> cases h

end Lz4

/-! ## Encoding -/

namespace Checked

theorem delivers_compressInto (h : block.size ≤ maxInput) (level : Int32) (dst : Buffer capacity) :
    ∃ o, compressInto block level dst = .ok o ∧ o.Delivers (encoded block level).toBytes := by
  rw [compressInto, if_neg (Nat.not_lt.2 h)]
  rcases attains_encodeBlock h level dst with ⟨out, hout, hholds⟩ | ⟨hrefused, hroom⟩
  · rw [hout]
    exact ⟨_, rfl, Outcome.delivers_of_le hholds.yields.length_le hholds.yields⟩
  · rw [hrefused]
    exact ⟨_, rfl, Outcome.delivers_of_lt hroom rfl⟩

end Checked

/-- **Destinations of every size.** An array that is not too large is encoded into the same bytes
wherever there is room for them, and elsewhere the destination is too small. One that is too large
is turned away by every destination. -/
theorem Lz4.compressInto_capacity (block : ByteArray) (level : Int32) :
    (block.size ≤ maxInput → ∃ bytes : List UInt8, ∀ {capacity : Nat} (dst : Buffer capacity),
      (compressInto block level dst).Delivers bytes ∧
        ∃ o, Checked.compressInto block level dst = .ok o ∧ o.Delivers bytes) ∧
    (maxInput < block.size → ∀ {capacity : Nat} (dst : Buffer capacity),
      (compressInto block level dst).result = .error .inputTooLarge ∧
        ∃ o, Checked.compressInto block level dst = .ok o ∧
          o.result = .error .inputTooLarge) := by
  refine ⟨fun hsize => ⟨(encoded block level).toBytes, fun dst => ⟨?_, ?_⟩⟩,
    fun hlarge {capacity} dst => ⟨?_, ?_⟩⟩
  · exact delivers_compressInto hsize level dst
  · exact Checked.delivers_compressInto hsize level dst
  · rw [compressInto, if_pos hlarge]
  · rw [Checked.compressInto, if_pos hlarge]
    exact ⟨_, rfl, rfl⟩

end BlockStream
