import BlockStream.Lz4.Compressor
import BlockStream.Proofs.Lz4.Decoding
import BlockStream.Proofs.Lz4.Encoding

/-!
# Old bytes of a destination

The encoder never reads its destination, and the decoder only what it wrote before. So of two
destinations only these bytes count, whatever stands behind them and however much room there is.
-/

namespace BlockStream

open Lz4

variable {block : ByteArray} {capacity room : Nat}

/-! ## Sinks -/

/-- The same bytes were written, and all of them fitted. -/
structure Sink.Agrees (s : Sink capacity) (s' : Sink room) : Prop where
  fits : s.Fits
  mark_eq : s.mark = s'.mark
  written_eq : s.written = s'.written

namespace Sink

variable {s : Sink capacity} {s' : Sink room}

theorem agrees_ofBuffer (dst : Buffer capacity) (out : Buffer room) :
    (ofBuffer dst).Agrees (ofBuffer out) :=
  ⟨fits_ofBuffer dst, rfl, rfl⟩

theorem Agrees.symm {s s' : Sink capacity} (h : s.Agrees s') : s'.Agrees s where
  fits := by
    rw [Fits, ← h.mark_eq]
    exact h.fits
  mark_eq := h.mark_eq.symm
  written_eq := h.written_eq.symm

theorem Agrees.fits_of_le (h : s.Agrees s') (hle : capacity ≤ room) : s'.Fits := by
  rw [Fits, ← h.mark_eq]
  exact Nat.le_trans h.fits hle

theorem Agrees.of_not_room_lt (h : s.Agrees s') (hle : capacity ≤ room) {n : Nat}
    (hn : ¬ s.room < n) : s.mark + n ≤ capacity ∧ ¬ s'.room < n := by
  rw [Decoder.room_lt_iff h.fits] at hn
  rw [Decoder.room_lt_iff (h.fits_of_le hle), ← h.mark_eq]
  omega

theorem Agrees.pushSlice (h : s.Agrees s') (hle : capacity ≤ room) {source : ByteArray}
    {start length : Nat} (hsource : start + length ≤ source.size)
    (hroom : s.mark + length ≤ capacity) :
    (s.pushSlice source start length).Agrees (s'.pushSlice source start length) where
  fits := hroom
  mark_eq := congrArg (· + length) h.mark_eq
  written_eq := by
    have hroom' : s'.mark + length ≤ room := h.mark_eq ▸ Nat.le_trans hroom hle
    rw [written_pushSlice hsource hroom, written_pushSlice hsource hroom', h.written_eq]

/-- **A match reads nothing but bytes that were written**, so it does not matter what stood behind
them. -/
theorem Agrees.pushBack (h : s.Agrees s') (hle : capacity ≤ room) {distance length : Nat}
    (hpos : 1 ≤ distance) (hback : distance ≤ s.mark) (hroom : s.mark + length ≤ capacity) :
    (s.pushBack distance length).Agrees (s'.pushBack distance length) where
  fits := by rwa [Fits, mark_pushBack]
  mark_eq := by rw [mark_pushBack, mark_pushBack, h.mark_eq]
  written_eq := by
    have hroom' : s'.mark + length ≤ room := h.mark_eq ▸ Nat.le_trans hroom hle
    rw [written_pushBack hpos hback hroom, written_pushBack hpos (h.mark_eq ▸ hback) hroom',
      h.written_eq]

theorem Agrees.same (h : s.Agrees s') (hle : capacity ≤ room) (result : Except BlockError Unit) :
    Outcome.Same ⟨result.map fun _ => s.mark, s.buffer⟩
      ⟨result.map fun _ => s'.mark, s'.buffer⟩ := by
  cases result with
  | error e => exact Outcome.same_of_error rfl rfl
  | ok _ =>
    refine Outcome.same_of_yields (yields_of_fits h.fits) ?_
    rw [h.written_eq]
    exact yields_of_fits (h.fits_of_le hle)

end Sink

namespace Lz4

/-! ## Decoders -/

namespace Decoder

/-- Both go on at the same place, or both end in the same way, with the same bytes written. -/
def Step.Alike : Step capacity → Step room → Prop
  | .more d, .more d' => d.pos = d'.pos ∧ d.out.Agrees d'.out
  | .done result out, .done result' out' => result = result' ∧ out.Agrees out'
  | _, _ => False

variable {d : Decoder capacity} {d' : Decoder room}

/-- **A step depends on the bytes written alone**, unless the smaller destination is too small. -/
theorem step_alike (block : ByteArray) (hle : capacity ≤ room) (hpos : d.pos = d'.pos)
    (hout : d.out.Agrees d'.out) :
    (∃ out, d.step block = .done (.error .outputTooSmall) out) ∨
      (d.step block).Alike (d'.step block) := by
  rw [step, step, hpos]
  cases hl : readLiterals block d'.pos with
  | none => exact Or.inr ⟨rfl, hout⟩
  | some l =>
    have hfield := (readLiterals_eq_some_iff.1 hl).1
    dsimp only
    split
    · exact Or.inl ⟨_, rfl⟩
    · next hliterals =>
      obtain ⟨hfits, hfits'⟩ := hout.of_not_room_lt hle hliterals
      have hpushed := hout.pushSlice hle (lt_of_readLiterals hl).2 hfits
      rw [if_neg hfits']
      split
      · exact Or.inr ⟨rfl, hpushed⟩
      · rw [hpushed.mark_eq]
        cases hm : readReference block l.field l.stop
            (d'.out.pushSlice block l.start l.length).mark with
        | none => exact Or.inr ⟨rfl, hpushed⟩
        | some m =>
          obtain ⟨⟨-, hone, -, hback⟩, -, -⟩ := (readReference_eq_some_iff hfield).1 hm
          rw [← hpushed.mark_eq] at hback
          dsimp only
          split
          · exact Or.inl ⟨_, rfl⟩
          · next hmatch =>
            obtain ⟨hfits, hfits'⟩ := hpushed.of_not_room_lt hle hmatch
            rw [if_neg hfits']
            exact Or.inr ⟨rfl, hpushed.pushBack hle hone hback hfits⟩

/-- **A run depends on the bytes written alone**, unless the smaller destination is too small. -/
theorem same_run_of_le (block : ByteArray) (hle : capacity ≤ room) (hpos : d.pos = d'.pos)
    (hout : d.out.Agrees d'.out) :
    (run block d).result = .error .outputTooSmall ∨ (run block d).Same (run block d') := by
  fun_induction run block d generalizing d' with
  | case1 d next hstep _ ih =>
    obtain ⟨out, hfull⟩ | halike := step_alike block hle hpos hout
    · cases hstep.symm.trans hfull
    · rw [hstep] at halike
      cases hstep' : d'.step block with
      | more next' =>
        rw [hstep'] at halike
        rw [run_of_more hstep']
        exact ih halike.1 halike.2
      | done result' out' =>
        rw [hstep'] at halike
        exact halike.elim
  | case2 d result out hstep =>
    obtain ⟨out', hfull⟩ | halike := step_alike block hle hpos hout
    · cases hstep.symm.trans hfull
      exact Or.inl rfl
    · rw [hstep] at halike
      cases hstep' : d'.step block with
      | more next' =>
        rw [hstep'] at halike
        exact halike.elim
      | done result' out' =>
        rw [hstep'] at halike
        obtain ⟨rfl, hagrees⟩ := halike
        rw [run_of_done hstep']
        exact Or.inr (hagrees.same hle result)

theorem same_run {d d' : Decoder capacity} (block : ByteArray) (hpos : d.pos = d'.pos)
    (hout : d.out.Agrees d'.out) : (run block d).Same (run block d') := by
  obtain h | h := same_run_of_le block (Nat.le_refl _) hpos hout
  · obtain h' | h' := same_run_of_le block (Nat.le_refl _) hpos.symm hout.symm
    · exact Outcome.same_of_error h h'
    · exact h'.symm
  · exact h

end Decoder

theorem same_decompressInto (block : ByteArray) (dst dst' : Buffer capacity) :
    (decompressInto block dst).Same (decompressInto block dst') :=
  Decoder.same_run block rfl (Sink.agrees_ofBuffer dst dst')

/-! ## Encoders -/

theorem same_compressInto (block : ByteArray) (level : Int32) (dst dst' : Buffer capacity) :
    (compressInto block level dst).Same (compressInto block level dst') := by
  by_cases hsize : block.size ≤ maxInput
  · exact Outcome.same_of_delivers (delivers_compressInto hsize level dst)
      (delivers_compressInto hsize level dst')
  · rw [compressInto, compressInto, if_pos (Nat.not_le.1 hsize), if_pos (Nat.not_le.1 hsize)]
    exact Outcome.same_of_error rfl rfl

end Lz4

/-- **Old bytes of a destination do not matter.** -/
theorem stable_lz4 : lz4.Stable where
  compress block level _ dst dst' := same_compressInto block level dst dst'
  decompress block _ dst dst' := same_decompressInto block dst dst'

end BlockStream
