import BlockStream.Proofs.Lz4.Stability

/-!
# Blocks that are cut

Every reader that is content with the front of a block has read what it would have read in the
whole block. So a decoder takes the same steps in both, up to the one that the cut goes through.
-/

namespace BlockStream

open Lz4

variable {block : ByteArray} {capacity cut : Nat}

theorem Buffer.blit_extract (b : Buffer capacity) (target : Nat) {start length : Nat}
    (h : start + length ≤ (block.extract 0 cut).size) :
    b.blit target (block.extract 0 cut) start length = b.blit target block start length := by
  have hsize : start + length ≤ block.size ∧ start + length ≤ cut := by
    rw [ByteArray.size_extract] at h
    omega
  by_cases hroom : target + length ≤ capacity
  · refine Buffer.ext (ext_of_toList ?_)
    change (b.blit _ _ _ _).toList = (b.blit _ _ _ _).toList
    have hpiece : ((block.extract 0 cut).data.toList.drop start).take length =
        (block.data.toList.drop start).take length := by
      change (bytesFrom _ start).take length = (bytesFrom block start).take length
      rw [bytesFrom_extract_zero, List.take_take, Nat.min_eq_left (by omega)]
    rw [toList_blit b hroom h, toList_blit b hroom hsize.1, hpiece]
  · rw [blit, blit, dif_neg (by rw [b.size_eq]; omega), dif_neg (by rw [b.size_eq]; omega)]

theorem Sink.pushSlice_extract (s : Sink capacity) {start length : Nat}
    (h : start + length ≤ (block.extract 0 cut).size) :
    s.pushSlice (block.extract 0 cut) start length = s.pushSlice block start length := by
  rw [pushSlice, pushSlice, Buffer.blit_extract s.buffer s.mark h]

namespace Lz4

/-! ## Readers -/

theorem readLiterals_extract {pos : Nat} {l : Literals}
    (h : readLiterals (block.extract 0 cut) pos = some l) : readLiterals block pos = some l := by
  obtain ⟨hfield, literals, hlength, hseg⟩ := readLiterals_eq_some_iff.1 h
  exact readLiterals_eq_some_iff.2 ⟨hfield, literals, hlength, hseg.of_extract⟩

theorem readReference_extract {field pos decoded : Nat} (hfield : field ≤ fieldMax) {m : Reference}
    (h : readReference (block.extract 0 cut) field pos decoded = some m) :
    readReference block field pos decoded = some m := by
  obtain ⟨hvalid, hmin, hseg⟩ := (readReference_eq_some_iff hfield).1 h
  exact (readReference_eq_some_iff hfield).2 ⟨hvalid, hmin, hseg.of_extract⟩

namespace Decoder

variable {d d' : Decoder capacity}

/-! ## One step -/

/-- What a step in the front of a block can be. -/
inductive FrontStep (block : ByteArray) (cut : Nat) (d : Decoder capacity) : Prop where
  /-- The cut is in the sequence, and not behind its literals. -/
  | malformed (out : Sink capacity)
      (front : d.step (block.extract 0 cut) = .done (.error .malformedInput) out)
  /-- The cut is right behind the literals. -/
  | literals (l : Literals) (found : readLiterals block d.pos = some l)
      (room : ¬ d.out.room < l.length) (ends : l.stop = (block.extract 0 cut).size)
      (front : d.step (block.extract 0 cut) =
        .done (.ok ()) (d.out.pushSlice block l.start l.length))
  /-- The destination is too small, for the whole block too. -/
  | full (out : Sink capacity) (whole : d.step block = .done (.error .outputTooSmall) out)
  /-- The sequence lies in the front. -/
  | more (d' : Decoder capacity) (front : d.step (block.extract 0 cut) = .more d')
      (whole : d.step block = .more d')

/-- **A step in the front of a block** reads nothing else than in the whole block. -/
theorem step_extract (block : ByteArray) (cut : Nat) (d : Decoder capacity) :
    FrontStep block cut d := by
  cases hfront : readLiterals (block.extract 0 cut) d.pos with
  | none =>
    refine .malformed d.out ?_
    simp only [step, hfront]
  | some l =>
    have hl := readLiterals_extract hfront
    have hfield := (readLiterals_eq_some_iff.1 hl).1
    have hpush := d.out.pushSlice_extract (lt_of_readLiterals hfront).2
    by_cases hroom : d.out.room < l.length
    · refine .full d.out ?_
      simp only [step, hl, if_pos hroom]
    by_cases hend : l.stop = (block.extract 0 cut).size
    · refine .literals l hl hroom hend ?_
      simp only [step, hfront, if_neg hroom, if_pos hend, hpush]
    have hstep := step_eq_refer hfront hroom hend
    rw [hpush] at hstep
    cases href : readReference (block.extract 0 cut) l.field l.stop
        (d.out.pushSlice block l.start l.length).mark with
    | none => exact .malformed _ (hstep.trans (refer_of_none href))
    | some m =>
      have hm := readReference_extract hfield href
      have hmore : l.stop ≠ block.size := by
        have := lt_of_readReference hm
        omega
      have hwhole := (step_eq_refer hl hroom hmore).trans (refer_of_some hm)
      have hpart := hstep.trans (refer_of_some href)
      split at hwhole
      · exact .full _ hwhole
      · next hmatch =>
        rw [if_neg hmatch] at hpart
        exact .more _ hpart hwhole

theorem exists_more_of_ne {l : Literals} {n : Nat} (h : (run block d).result = .ok n)
    (hfits : d.out.Fits) (hl : readLiterals block d.pos = some l) (hroom : ¬ d.out.room < l.length)
    (hend : l.stop ≠ block.size) :
    let out := d.out.pushSlice block l.start l.length
    ∃ d', d.step block = .more d' ∧ out.Fits ∧ out.mark + minMatch ≤ d'.out.mark ∧
      out.written <+: d'.out.written := by
  intro out
  have hout : out.Fits := by
    rw [room_lt_iff hfits] at hroom
    exact Nat.le_of_not_lt hroom
  have hstep : d.step block = refer block out l.field l.stop := step_eq_refer hl hroom hend
  cases hm : readReference block l.field l.stop out.mark with
  | none =>
    rw [run_of_done (hstep.trans (refer_of_none hm))] at h
    cases h
  | some m =>
    rw [refer_of_some hm] at hstep
    split at hstep
    · rw [run_of_done hstep] at h
      cases h
    · next hmatch =>
      obtain ⟨⟨hmin, hone, -, hback⟩, -⟩ :=
        (readReference_eq_some_iff (readLiterals_eq_some_iff.1 hl).1).1 hm
      rw [room_lt_iff hout] at hmatch
      refine ⟨_, hstep, hout, ?_, ?_⟩
      · rw [Sink.mark_pushBack]
        exact Nat.add_le_add_left hmin _
      · rw [Sink.written_pushBack hone hback (Nat.le_of_not_lt hmatch)]
        exact prefix_copyBack ..

/-! ## A whole run -/

theorem written_prefix_of_yields {bytes : List UInt8} (h : (run block d).Yields bytes)
    (hfits : d.out.Fits) : d.out.written <+: bytes := by
  obtain ⟨b, hends, hroom⟩ := ends_of_run h.1 hfits
  obtain ⟨out, hrun, hmark, hwritten⟩ := run_of_ends hends hroom
  have hout : out.Fits := by rwa [Sink.Fits, hmark]
  rw [hrun] at h
  rw [h.unique (Sink.yields_of_fits hout), hwritten]
  exact (prefix_foldl_decoded ..).trans (List.prefix_append ..)

/-- **A run in the front of a block** that is decoded. The induction is on the run in the front. -/
theorem run_extract {bytes : List UInt8} (h : (run block d).Yields bytes) (hfits : d.out.Fits)
    (hcut : cut < block.size) :
    (run (block.extract 0 cut) d).result = .error .malformedInput ∨
      ∃ front, (run (block.extract 0 cut) d).Yields front ∧
        front.length + minMatch ≤ bytes.length ∧ front <+: bytes := by
  have hsize : (block.extract 0 cut).size ≠ block.size := by
    rw [ByteArray.size_extract]
    omega
  fun_induction run (block.extract 0 cut) d with
  | case1 d d' hstep _ ih =>
    cases step_extract block cut d with
    | malformed out hfront => cases hstep.symm.trans hfront
    | literals l hl hroom hend hfront => cases hstep.symm.trans hfront
    | full out hwhole =>
      rw [run_of_done hwhole] at h
      cases h.1
    | more next hfront hwhole =>
      obtain rfl := Step.more.inj (hstep.symm.trans hfront)
      rw [run_of_more hwhole] at h
      exact ih h (fits_of_step hwhole hfits)
  | case2 d result out hstep =>
    cases step_extract block cut d with
    | malformed out hfront =>
      obtain ⟨rfl, -⟩ := Step.done.inj (hstep.symm.trans hfront)
      exact Or.inl rfl
    | literals l hl hroom hend hfront =>
      obtain ⟨rfl, rfl⟩ := Step.done.inj (hstep.symm.trans hfront)
      obtain ⟨d', hwhole, hout, hmark, hprefix⟩ :=
        exists_more_of_ne h.1 hfits hl hroom (hend ▸ hsize)
      have hfits' := fits_of_step hwhole hfits
      rw [run_of_more hwhole] at h
      have hprefix' := written_prefix_of_yields h hfits'
      have hlength := hprefix'.length_le
      rw [Sink.length_written hfits'] at hlength
      refine Or.inr ⟨_, Sink.yields_of_fits hout, ?_, hprefix.trans hprefix'⟩
      rw [Sink.length_written hout]
      exact Nat.le_trans hmark hlength
    | full out hwhole =>
      rw [run_of_done hwhole] at h
      cases h.1
    | more next hfront hwhole => cases hstep.symm.trans hfront

end Decoder

/-! ## Blocks -/

/-- **A block that is cut never decodes to wrong bytes.** If a block is decoded, then each of its
proper fronts is malformed for a destination of that size, or it is decoded to a front of the same
bytes that lacks at least the bytes of one match. No destination becomes too small. -/
theorem decompressInto_extract {n : Nat} {dst : Buffer capacity}
    (h : (decompressInto block dst).result = .ok n) (hcut : cut < block.size)
    (out : Buffer capacity) :
    (decompressInto (block.extract 0 cut) out).result = .error .malformedInput ∨
      ∃ m, (decompressInto (block.extract 0 cut) out).result = .ok m ∧ m + minMatch ≤ n ∧
        ((decompressInto (block.extract 0 cut) out).buffer.first m).data.toList <+:
          ((decompressInto block dst).buffer.first n).data.toList := by
  obtain ⟨b, hbytes, hvalid, hroom⟩ := valid_of_decompressInto h
  have hdst := yields_decompressInto hbytes hvalid dst hroom
  have hout := yields_decompressInto hbytes hvalid out hroom
  obtain rfl := Except.ok.inj (h.symm.trans hdst.1)
  obtain hmalformed | ⟨front, hfront, hlength, hprefix⟩ :=
    Decoder.run_extract hout (Sink.fits_ofBuffer out) hcut
  · exact Or.inl hmalformed
  · have hfront : (decompressInto (block.extract 0 cut) out).Yields front := hfront
    refine Or.inr ⟨front.length, hfront.1, hlength, ?_⟩
    rw [hfront.toList_first, hdst.toList_first]
    exact hprefix

/-- One literal with a match, then five literals: cut behind the first literal, and in the match. -/
theorem decompressInto_extract_run :
    let block : ByteArray := ⟨#[0x13, 0x61, 1, 0, 0x50, 0x61, 0x61, 0x61, 0x61, 0x61]⟩
    (decompressInto block (Buffer.zeros 13)).result = .ok 13 ∧
      (decompressInto (block.extract 0 2) (Buffer.zeros 13)).result = .ok 1 ∧
      1 + minMatch ≤ 13 ∧
      ((decompressInto (block.extract 0 2) (Buffer.zeros 13)).buffer.first 1).data.toList <+:
        ((decompressInto block (Buffer.zeros 13)).buffer.first 13).data.toList ∧
      (decompressInto (block.extract 0 3) (Buffer.zeros 13)).result = .error .malformedInput := by
  intro block
  have hwhole : (decompressInto block (Buffer.zeros 13)).result = .ok 13 := by decide +kernel
  have hliteral : (decompressInto (block.extract 0 2) (Buffer.zeros 13)).result = .ok 1 := by
    decide +kernel
  have hmatch : (decompressInto (block.extract 0 3) (Buffer.zeros 13)).result =
      .error .malformedInput := by
    decide +kernel
  obtain hmalformed | ⟨m, hm, hle, hprefix⟩ :=
    decompressInto_extract hwhole (show 2 < block.size by decide) (Buffer.zeros 13)
  · cases hliteral.symm.trans hmalformed
  · cases hliteral.symm.trans hm
    exact ⟨hwhole, hliteral, hle, hprefix, hmatch⟩

end Lz4

end BlockStream
