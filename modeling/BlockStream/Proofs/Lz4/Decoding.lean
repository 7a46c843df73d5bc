import BlockStream.Proofs.Lz4.Grammar

/-!
# What the decoder accepts

A step of the decoder reads the sequence ahead of it and writes what the sequence stands for; a
run reads a whole block, and accepts exactly the grammar (**`decompressInto_eq_ok_iff`**).
-/

namespace BlockStream.Lz4

variable {block : ByteArray} {capacity : Nat}

namespace Decoder

variable {d d' : Decoder capacity} {s : Sequence} {stop spare : Nat} {last : List UInt8}

/-! ## One step -/

theorem room_lt_iff {out : Sink capacity} {n : Nat} (h : out.Fits) :
    out.room < n ↔ capacity < out.mark + n := by
  unfold Sink.Fits at h
  unfold Sink.room
  omega

/-- The rest of a step, behind literals that do not end the block. -/
def refer (block : ByteArray) (out : Sink capacity) (field pos : Nat) : Step capacity :=
  match readReference block field pos out.mark with
  | none => .done (.error .malformedInput) out
  | some m =>
    if out.room < m.length then .done (.error .outputTooSmall) out
    else .more ⟨m.stop, out.pushBack m.distance m.length⟩

theorem step_eq_refer {l : Literals} (hl : readLiterals block d.pos = some l)
    (hroom : ¬ d.out.room < l.length) (hend : l.stop ≠ block.size) :
    d.step block = refer block (d.out.pushSlice block l.start l.length) l.field l.stop := by
  simp only [step, hl, if_neg hroom, if_neg hend]
  rfl

theorem refer_of_none {out : Sink capacity} {field pos : Nat}
    (h : readReference block field pos out.mark = none) :
    refer block out field pos = .done (.error .malformedInput) out := by
  simp only [refer, h]

theorem refer_of_some {out : Sink capacity} {field pos : Nat} {m : Reference}
    (h : readReference block field pos out.mark = some m) :
    refer block out field pos =
      if out.room < m.length then .done (.error .outputTooSmall) out
      else .more ⟨m.stop, out.pushBack m.distance m.length⟩ := by
  simp only [refer, h]

theorem pushSlice_of_literals (out : Sink capacity) {literals : List UInt8} {field pos : Nat}
    (hseg : Segment block pos stop (literalBytes literals field)) (hfield : field ≤ fieldMax)
    (hroom : out.mark + literals.length ≤ capacity) :
    ∃ l : Literals, readLiterals block pos = some l ∧ l.field = field ∧
      l.length = literals.length ∧ l.stop = stop ∧
      (out.pushSlice block l.start l.length).written = out.written ++ literals := by
  obtain ⟨hlt, hlits⟩ := segment_literals hseg
  have hlen := hlits.1
  have hl : readLiterals block pos = some ⟨field, stop - literals.length, literals.length⟩ :=
    readLiterals_eq_some_iff.2 ⟨hfield, literals, rfl, by rwa [Literals.stop, ← hlen]⟩
  refine ⟨_, hl, rfl, rfl, hlen.symm, ?_⟩
  have hstop := (lt_of_readLiterals hl).2
  rw [Sink.written_pushSlice hstop hroom]
  have htake := hlits.eq_take
  rw [Nat.sub_sub_self (by omega)] at htake
  exact congrArg (out.written ++ ·) htake.symm

/-- **A sequence that fits is carried out.** -/
theorem step_of_sequence (hseg : Segment block d.pos stop s.toBytes) (hvalid : s.Valid d.out.mark)
    (hroom : d.out.mark + s.size ≤ capacity) :
    ∃ d', d.step block = .more d' ∧ d'.pos = stop ∧ d'.out.mark = d.out.mark + s.size ∧
      d'.out.written = s.decoded d.out.written := by
  obtain ⟨mid, hlits, href⟩ := segment_toBytes_iff.1 hseg
  obtain ⟨hlen, hpos, hmax, hle⟩ := hvalid
  rw [Sequence.size, ← Nat.add_assoc] at hroom
  obtain ⟨l, hl, hfield, hll, rfl, hwritten⟩ :=
    pushSlice_of_literals d.out hlits (Nat.min_le_right ..) (by omega)
  let out := d.out.pushSlice block l.start l.length
  have hmark : out.mark = d.out.mark + s.literals.length := by rw [← hll]; rfl
  have hfits : out.Fits := by
    unfold Sink.Fits
    omega
  have hm : readReference block l.field l.stop out.mark = some ⟨s.distance, s.length, stop⟩ := by
    rw [readReference_eq_some_iff (hfield ▸ Nat.min_le_right ..)]
    exact ⟨⟨hlen, hpos, hmax, by rwa [hmark]⟩, hfield, href⟩
  refine ⟨⟨stop, out.pushBack s.distance s.length⟩, ?_, rfl, ?_, ?_⟩
  · have hroom1 : ¬ d.out.room < l.length := by
      rw [room_lt_iff (Nat.le_of_add_right_le (by omega : d.out.mark + 0 ≤ capacity)), hll]
      omega
    have hroom2 : ¬ out.room < s.length := by
      rw [room_lt_iff hfits, hmark]
      omega
    have hend : l.stop ≠ block.size := Nat.ne_of_lt (lt_of_segment_referenceBytes href).2
    rw [step_eq_refer hl hroom1 hend, refer_of_some hm, if_neg hroom2]
  · rw [Sink.mark_pushBack, hmark, Sequence.size, Nat.add_assoc]
  · rw [Sink.written_pushBack hpos (by rwa [hmark]) (by rwa [hmark]), hwritten]
    rfl

/-- **Literals that reach the end of the block end the run.** -/
theorem step_of_last (hseg : Segment block d.pos block.size (literalBytes last spare))
    (hspare : spare ≤ fieldMax) (hroom : d.out.mark + last.length ≤ capacity) :
    ∃ out, d.step block = .done (.ok ()) out ∧ out.mark = d.out.mark + last.length ∧
      out.written = d.out.written ++ last := by
  obtain ⟨l, hl, -, hll, hend, hwritten⟩ := pushSlice_of_literals d.out hseg hspare hroom
  refine ⟨d.out.pushSlice block l.start l.length, ?_, by rw [← hll]; rfl, hwritten⟩
  have hroom1 : ¬ d.out.room < l.length := by
    rw [room_lt_iff (Nat.le_of_add_right_le hroom), hll]
    omega
  unfold step
  simp only [hl]
  rw [if_neg hroom1, if_pos hend]

theorem sequence_of_step (h : d.step block = .more d') (hfits : d.out.Fits) :
    ∃ s : Sequence, Segment block d.pos d'.pos s.toBytes ∧ s.Valid d.out.mark ∧
      d.out.mark + s.size ≤ capacity := by
  revert h
  fun_cases step block d with
  | case6 l hl hroom out hend m hm hroom' =>
    intro h
    obtain rfl := Step.more.inj h
    obtain ⟨hfield, literals, hlen, hlits⟩ := readLiterals_eq_some_iff.1 hl
    obtain ⟨⟨hmin, hpos, hmax, hle⟩, hexcess, href⟩ := (readReference_eq_some_iff hfield).1 hm
    have hmark : out.mark = d.out.mark + literals.length := by rw [hlen]; rfl
    rw [room_lt_iff hfits, ← hlen] at hroom
    rw [room_lt_iff (by unfold Sink.Fits; omega), hmark] at hroom'
    rw [hexcess] at hlits
    refine ⟨⟨literals, m.distance, m.length⟩, segment_toBytes_iff.2 ⟨l.stop, hlits, href⟩, ?_, ?_⟩
    · exact ⟨hmin, hpos, hmax, by rwa [← hmark]⟩
    · show d.out.mark + (literals.length + m.length) ≤ capacity
      omega
  | _ =>
    intro h
    cases h

theorem fits_of_step (h : d.step block = .more d') (hfits : d.out.Fits) : d'.out.Fits := by
  obtain ⟨s, hseg, hvalid, hroom⟩ := sequence_of_step h hfits
  obtain ⟨next, hmore, -, hmark, -⟩ := step_of_sequence hseg hvalid hroom
  obtain rfl := Step.more.inj (h.symm.trans hmore)
  rwa [Sink.Fits, hmark]

theorem last_of_step {out : Sink capacity} (h : d.step block = .done (.ok ()) out)
    (hfits : d.out.Fits) :
    ∃ last spare, Segment block d.pos block.size (literalBytes last spare) ∧ spare ≤ fieldMax ∧
      d.out.mark + last.length ≤ capacity := by
  revert h
  fun_cases step block d with
  | case3 l hl hroom out hend =>
    intro _
    obtain ⟨hfield, literals, hlen, hlits⟩ := readLiterals_eq_some_iff.1 hl
    rw [hend] at hlits
    rw [room_lt_iff hfits, ← hlen] at hroom
    exact ⟨literals, l.field, hlits, hfield, Nat.le_of_not_lt hroom⟩
  | _ =>
    intro h
    cases h

theorem error_of_step {e : BlockError} {out : Sink capacity}
    (h : d.step block = .done (.error e) out) : e = .malformedInput ∨ e = .outputTooSmall := by
  revert h
  fun_cases step block d with
  | case1 | case4 =>
    intro h
    exact Or.inl (Except.error.inj (Step.done.inj h).1).symm
  | case2 | case5 =>
    intro h
    exact Or.inr (Except.error.inj (Step.done.inj h).1).symm
  | case3 =>
    intro h
    cases (Step.done.inj h).1
  | case6 =>
    intro h
    cases h

/-! ## A whole run -/

theorem run_of_more (h : d.step block = .more d') : run block d = run block d' := by
  rw [run]
  split
  · next h' => rw [Step.more.inj (h.symm.trans h')]
  · next h' => cases h.symm.trans h'

theorem run_of_done {result : Except BlockError Unit} {out : Sink capacity}
    (h : d.step block = .done result out) :
    run block d = ⟨result.map fun _ => out.mark, out.buffer⟩ := by
  rw [run]
  split
  · next h' => cases h.symm.trans h'
  · next h' =>
    obtain ⟨rfl, rfl⟩ := Step.done.inj (h.symm.trans h')
    rfl

/-- **A block that fits is decoded.** The induction is on its sequences. -/
theorem run_of_ends {b : Block} (h : b.Ends block d.pos d.out.mark)
    (hroom : d.out.mark + b.size ≤ capacity) :
    ∃ out : Sink capacity, run block d = ⟨.ok out.mark, out.buffer⟩ ∧
      out.mark = d.out.mark + b.size ∧
      out.written = b.sequences.foldl Sequence.decoded d.out.written ++ b.last := by
  obtain ⟨ss, last, spare⟩ := b
  induction ss generalizing d with
  | nil =>
    obtain ⟨hseg, hspare⟩ := Block.ends_nil_iff.1 h
    simp only [Block.size, totalSize, Nat.zero_add] at hroom ⊢
    obtain ⟨out, hstep, hmark, hwritten⟩ := step_of_last hseg hspare hroom
    exact ⟨out, run_of_done hstep, hmark, hwritten⟩
  | cons s ss ih =>
    obtain ⟨mid, hseg, hvalid, hrest⟩ := Block.ends_cons_iff.1 h
    rw [Block.size_cons] at hroom ⊢
    obtain ⟨d', hstep, rfl, hmark, hwritten⟩ := step_of_sequence hseg hvalid (by omega)
    rw [← hmark] at hrest
    obtain ⟨out, hrun, hmark', hwritten'⟩ := ih hrest (by rw [hmark]; omega)
    refine ⟨out, (run_of_more hstep).trans hrun, ?_, ?_⟩
    · rw [hmark', hmark, Nat.add_assoc]
    · rw [hwritten', hwritten, List.foldl_cons]

/-- **Nothing but a block that fits is decoded.** -/
theorem ends_of_run {n : Nat} (h : (run block d).result = .ok n) (hfits : d.out.Fits) :
    ∃ b : Block, b.Ends block d.pos d.out.mark ∧ d.out.mark + b.size ≤ capacity := by
  fun_induction run block d with
  | case1 d d' hstep _ ih =>
    obtain ⟨s, hseg, hvalid, hroom⟩ := sequence_of_step hstep hfits
    obtain ⟨d'', hmore, -, hmark, -⟩ := step_of_sequence hseg hvalid hroom
    obtain rfl := Step.more.inj (hstep.symm.trans hmore)
    obtain ⟨⟨ss, last, spare⟩, hends, hsize⟩ := ih h (by rwa [Sink.Fits, hmark])
    rw [hmark] at hends hsize
    refine ⟨⟨s :: ss, last, spare⟩, Block.ends_cons_iff.2 ⟨_, hseg, hvalid, hends⟩, ?_⟩
    rw [Block.size_cons]
    omega
  | case2 d result out hstep =>
    cases result with
    | error e => cases h
    | ok u =>
      obtain ⟨last, spare, hseg, hspare, hroom⟩ := last_of_step hstep hfits
      refine ⟨⟨[], last, spare⟩, Block.ends_nil_iff.2 ⟨hseg, hspare⟩, ?_⟩
      simpa [Block.size, totalSize] using hroom

theorem error_of_run {e : BlockError} (h : (run block d).result = .error e) :
    e = .malformedInput ∨ e = .outputTooSmall := by
  fun_induction run block d with
  | case1 d d' hstep _ ih => exact ih h
  | case2 d result out hstep =>
    cases result with
    | error e' =>
      obtain rfl := Except.error.inj h
      exact error_of_step hstep
    | ok u => cases h

end Decoder

/-! ## Blocks -/

theorem yields_decompressInto {b : Block} (hbytes : b.toBytes = block.data.toList)
    (hvalid : b.Valid) (dst : Buffer capacity) (hroom : b.size ≤ capacity) :
    (decompressInto block dst).Yields b.decoded := by
  obtain ⟨out, hrun, hmark, hwritten⟩ :=
    Decoder.run_of_ends (d := ⟨0, Sink.ofBuffer dst⟩) (Block.ends_zero_iff.2 ⟨hbytes, hvalid⟩)
      (by rwa [Sink.mark_ofBuffer, Nat.zero_add])
  rw [Sink.mark_ofBuffer, Nat.zero_add] at hmark
  rw [Sink.written_ofBuffer] at hwritten
  rw [decompressInto, hrun, Outcome.Yields, b.length_decoded, ← hmark]
  exact ⟨rfl, hwritten⟩

theorem valid_of_decompressInto {n : Nat} {dst : Buffer capacity}
    (h : (decompressInto block dst).result = .ok n) :
    ∃ b : Block, b.toBytes = block.data.toList ∧ b.Valid ∧ b.size ≤ capacity := by
  obtain ⟨b, hends, hroom⟩ := Decoder.ends_of_run h (Sink.fits_ofBuffer dst)
  obtain ⟨hbytes, hvalid⟩ := Block.ends_zero_iff.1 hends
  exact ⟨b, hbytes, hvalid, by simpa [Sink.mark_ofBuffer] using hroom⟩

/-- **The decoder accepts exactly the grammar, with its meaning.** A block that has a parse and
fits is decoded into what its parse stands for, and any other bytes are malformed or do not fit. No
bytes have two parses. -/
theorem decompressInto_eq_ok_iff (block : ByteArray) (dst : Buffer capacity) :
    (∀ (n : Nat) (v : ByteArray),
      ((decompressInto block dst).result = .ok n ∧ (decompressInto block dst).buffer.first n = v) ↔
        ∃ b : Block, b.toBytes = block.data.toList ∧ b.Valid ∧ b.decoded = v.data.toList ∧
          v.size = n ∧ n ≤ capacity) ∧
    ((¬ ∃ n, (decompressInto block dst).result = .ok n) →
      (decompressInto block dst).result = .error .malformedInput ∨
        (decompressInto block dst).result = .error .outputTooSmall) ∧
    ∀ b b' : Block, b.Valid → b'.Valid → b.toBytes = block.data.toList →
      b'.toBytes = block.data.toList → b = b' := by
  refine ⟨fun n v => ⟨?_, ?_⟩, fun hno => ?_, fun b b' hv hv' hb hb' => ?_⟩
  · rintro ⟨hn, rfl⟩
    obtain ⟨b, hbytes, hvalid, hroom⟩ := valid_of_decompressInto hn
    have hy := yields_decompressInto hbytes hvalid dst hroom
    obtain rfl := Except.ok.inj (hn.symm.trans hy.1)
    refine ⟨b, hbytes, hvalid, hy.toList_first.symm, ?_, hy.length_le⟩
    rw [← length_toList_data, hy.toList_first]
  · rintro ⟨b, hbytes, hvalid, hdecoded, rfl, hroom⟩
    have hsize : b.size = v.size := by
      rw [← b.length_decoded, hdecoded, length_toList_data]
    have hy := yields_decompressInto hbytes hvalid dst (hsize ▸ hroom)
    rw [hdecoded] at hy
    exact ⟨hy.1, ext_of_toList hy.toList_first⟩
  · cases hresult : (decompressInto block dst).result with
    | ok n => exact absurd ⟨n, hresult⟩ hno
    | error e =>
      obtain rfl | rfl := Decoder.error_of_run hresult
      · exact Or.inl rfl
      · exact Or.inr rfl
  · exact (Block.ends_zero_iff.2 ⟨hb, hv⟩).unique (Block.ends_zero_iff.2 ⟨hb', hv'⟩)

end BlockStream.Lz4
