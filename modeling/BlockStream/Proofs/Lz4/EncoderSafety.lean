import BlockStream.Proofs.Lz4.Probing

/-!
# The encoder stays inside its arrays

The encoder once more, with checks and with an allowance of rounds for each loop. It writes a
match as soon as it is found, and goes on without a scan where the next one begins right there.
The bytes written so far and those that the search has still to give make up the block: this
carries all loops.
-/

namespace BlockStream

open Lz4

variable {block : ByteArray}

namespace Lz4

variable {limit anchor pos candidate : Nat}

/-! ## Matches from their beginning -/

theorem commonEnd_add {k : Nat} (hlimit : pos + k ≤ limit)
    (hagree : ∀ i < k, byteAt block (pos + i) = byteAt block (candidate + i)) :
    commonEnd block limit pos candidate = commonEnd block limit (pos + k) (candidate + k) := by
  simp only [commonEnd_eq_commonEndBytewise]
  induction k with
  | zero => rfl
  | succ k ih =>
    rw [ih (by omega) fun i hi => hagree i (by omega),
      commonEndBytewise_of_eq (by omega) (hagree k (Nat.lt_succ_self k))]
    rfl

theorem commonStart_self (block : ByteArray) (pos candidate : Nat) :
    commonStart block pos pos candidate = pos :=
  Nat.le_antisymm (commonStart_le ..) (le_commonStart (Nat.le_refl _))

/-- A match around a position where four bytes were found to agree. It has the same end when it is
measured from its beginning. -/
structure Match.FoundAt (block : ByteArray) (anchor pos : Nat) (m : Match) : Prop where
  sound : m.Sound block anchor
  le_stop : pos + minMatch ≤ m.stop
  measured : commonEnd block (block.size - lastLiterals) (m.start + minMatch)
    (m.start - m.distance + minMatch) = m.stop

namespace Search

theorem foundAt_extend (hanchor : anchor ≤ pos) (hlt : candidate < pos)
    (hmax : pos - candidate ≤ maxDistance) (hword : word32 block candidate = word32 block pos)
    (hsize : pos + matchMargin ≤ block.size) :
    (extend block anchor pos candidate).FoundAt block anchor pos := by
  have hsound := sound_extend hanchor hlt hmax hword hsize
  have hstop : pos + minMatch ≤ (extend block anchor pos candidate).stop := by
    rw [stop_extend]
    exact le_commonEnd ..
  refine ⟨hsound, hstop, ?_⟩
  rw [stop_extend] at hstop
  obtain ⟨-, -, -, -, hdistance, -, -, hagree⟩ := hsound
  rw [stop_extend] at hagree ⊢
  have hstart := commonStart_le block anchor pos candidate
  simp only [extend] at hagree hdistance ⊢
  rw [commonEnd_add (k := pos - commonStart block anchor pos candidate)]
  · congr 1 <;> omega
  · simp only [matchMargin, minMatch, lastLiterals] at *
    omega
  · intro i hi
    rw [hagree _ (by omega) (by omega)]
    congr 1
    omega

/-! ## What follows a match -/

variable {a : Acceleration} {table : Table} {stop : Nat}

/-- The table after a match that ends at `stop`. -/
def settled (block : ByteArray) (table : Table) (stop : Nat) : Table :=
  table.store (word32 block (stop - 2)) (stop - 2)

theorem output_after_of_end (h : block.size < stop + matchMargin) :
    (after block table stop).output block a = literalBytes (bytesFrom block stop) 0 :=
  output_of_done (step_of_end h)

theorem output_after_of_none (h : ¬ block.size < stop + matchMargin)
    (hc : candidate? block (settled block table stop) stop = none) :
    (after block table stop).output block a =
      output block a
        ⟨(settled block table stop).store (word32 block stop) stop, stop, stop + 1, 1⟩ :=
  output_of_miss (step_of_no_candidate (s := after block table stop) h hc)

theorem output_after_of_some (h : ¬ block.size < stop + matchMargin)
    (hc : candidate? block (settled block table stop) stop = some candidate) :
    (after block table stop).output block a =
      ((extend block stop stop candidate).toSequence block stop).toBytes ++
        (after block ((settled block table stop).store (word32 block stop) stop)
          (extend block stop stop candidate).stop).output block a :=
  output_of_hit (step_of_candidate (s := after block table stop) h hc) (Nat.le_refl _)

end Search

theorem length_literalBytes_le (s : Sequence) :
    (literalBytes s.literals 0).length ≤ s.toBytes.length := by
  rw [Sequence.toBytes, List.length_append, length_literalBytes, length_literalBytes]
  omega

end Lz4

namespace Checked

variable {capacity : Nat} {total : List UInt8} {a : Acceleration}

/-! ## Adjoining matches -/

/-- How a series of adjoining matches ends. -/
inductive Exit (capacity : Nat) where
  /-- Too little of the block is left for another match. -/
  | ended (anchor : Nat) (out : Sink capacity)
  /-- The next match has to be looked for. -/
  | resumed (table : Table) (pos anchor : Nat) (out : Sink capacity)

/-- Write the match of a sequence whose token is at `place`, and hand its end back. -/
def measured (block : ByteArray) (matchLimit pos candidate place : Nat) (out : Sink capacity) :
    Except Halt (Nat × Sink capacity) := do
  let agreed ← access (count (.below UInt32.size) block matchLimit (pos + minMatch)
    (candidate + minMatch))
  let length := minMatch + agreed
  let distance ← access (sub pos candidate)
  let out ← matched out place distance length
  return (pos + length, out)

def settle (block : ByteArray) (table : Table) (stop : Nat) : Except Halt Table := do
  let filler ← access (sub stop 2)
  let word ← wordAt block filler
  let slot ← slotOf word
  remember table slot filler

/-- Write a match and all that follow it right away. The match begins at `pos` and was found at
`found`, and the token of its sequence is at `place`. -/
def emit (block : ByteArray) (limit matchLimit : Nat) :
    (rounds : Nat) → Table → (found pos candidate place : Nat) → Sink capacity →
      Except Halt (Exit capacity)
  | 0, _, _, _, _, _, _ => throw (.fault .unfinished)
  | rounds + 1, table, found, pos, candidate, place, out => do
    let (stop, out) ← measured block matchLimit pos candidate place out
    if stop ≤ found then throw .stuck
    else if limit ≤ stop then return .ended stop out
    else
      let table ← settle block table stop
      match ← probe block table stop with
      | (some next, table) =>
        let (place, out) ← literals out ByteArray.empty
        emit block limit matchLimit rounds table stop stop next place out
      | (none, table) => return .resumed table (stop + 1) stop out

/-- All matches are written, and literals from `anchor` on complete the output. -/
def Ended (block : ByteArray) (total : List UInt8) (anchor : Nat) (out : Sink capacity) : Prop :=
  anchor ≤ block.size ∧
    ∃ before, Holds out before ∧ before ++ literalBytes (bytesFrom block anchor) 0 = total

/-- What is written, and what the search from `pos` on has still to give, make up the output. -/
structure Resumed (block : ByteArray) (a : Acceleration) (total : List UInt8) (table : Table)
    (pos anchor : Nat) (out : Sink capacity) : Prop where
  anchor_le : anchor ≤ pos
  pos_pos : 0 < pos
  pos_le : pos ≤ block.size
  below : table.Below pos
  total_eq : ∃ before, Holds out before ∧
    before ++ Search.output block a ⟨table, anchor, pos, 1⟩ = total

/-- What has become of a series of matches, the first of which ends after `low`. -/
def Exit.Follows (block : ByteArray) (a : Acceleration) (total : List UInt8) (low : Nat) :
    Exit capacity → Prop
  | .ended anchor out => Ended block total anchor out
  | .resumed table pos anchor out => low < pos ∧ Resumed block a total table pos anchor out

theorem attains_literals_of_match {out : Sink capacity} {run : ByteArray}
    {before more : List UInt8} {anchor : Nat} {m : Match}
    (hrun : run.data.toList = (m.toSequence block anchor).literals) (hout : Holds out before)
    (htotal : before ++ ((m.toSequence block anchor).toBytes ++ more) = total) :
    Attains capacity total.length (literals out run) fun r => r.1 = before.length ∧
      Holds r.2 (before ++ literalBytes (m.toSequence block anchor).literals 0) := by
  have hle := length_literalBytes_le (m.toSequence block anchor)
  rw [← hrun] at hle ⊢
  apply attains_literals hout
  rw [← htotal, List.length_append, List.length_append, List.length_append]
  omega

/-- **What a sink holds after the match of a sequence.** -/
theorem attains_measured {found anchor : Nat} {m : Match} {out : Sink capacity}
    {before more : List UInt8} (hmax : block.size ≤ maxInput) (hm : m.FoundAt block anchor found)
    (hout : Holds out (before ++ literalBytes (m.toSequence block anchor).literals 0))
    (htotal : before ++ ((m.toSequence block anchor).toBytes ++ more) = total) :
    Attains capacity total.length
      (measured block (block.size - lastLiterals) m.start (m.start - m.distance) before.length out)
      fun r => r.1 = m.stop ∧ Holds r.2 (before ++ (m.toSequence block anchor).toBytes) := by
  have hlength := hm.sound.minMatch_le
  have hdistance := hm.sound.distance_le_start
  have hstop : m.stop = m.start + m.length := rfl
  have hstopSize := hm.sound.stop_le
  have hagreed : minMatch + (m.stop - (m.start + minMatch)) = m.length := by omega
  have hbytes : before ++ (m.toSequence block anchor).toBytes =
      before ++ literalBytes (m.toSequence block anchor).literals (m.length - minMatch) ++
        referenceBytes m.distance (m.length - minMatch) := (List.append_assoc ..).symm
  have hsize := congrArg List.length htotal
  rw [← List.append_assoc, List.length_append, hbytes] at hsize
  have hword (n : Nat) (hn : n ≤ block.size) : (Words.below UInt32.size).Has (n + 8) := by
    show n + 8 < UInt32.size
    simp only [maxInput, UInt32.size] at *
    omega
  rw [measured, count_eq (Nat.sub_le ..) (hword _ (Nat.sub_le ..)) (hword _ (by omega)) (by omega),
    access_pure, pure_bind, commonLength, hm.measured]
  dsimp only
  rw [hagreed, access_sub (Nat.sub_le ..), pure_bind, Nat.sub_sub_self hdistance, ← hstop, hbytes]
  exact (attains_matched hout hm.sound.distance_le hlength (by omega)).bind fun out' hout' =>
    attains_pure ⟨rfl, hout'⟩

theorem settle_eq {table : Table} {stop : Nat} (hbelow : table.Below (stop - 2)) (hpos : 2 ≤ stop)
    (hstop : stop + 2 ≤ block.size) (hword : stop < UInt32.size) :
    settle block table stop = pure (Search.settled block table stop) := by
  rw [settle, access_sub hpos, pure_bind, wordAt_of_le (by omega), pure_bind, slotOf_eq, pure_bind,
    remember_of_below hbelow (by omega), Search.settled]

/-- **A series of adjoining matches**, by induction on the rounds. -/
theorem attains_emit {limit rounds low found anchor : Nat} {table : Table} {m : Match}
    {out : Sink capacity} {before : List UInt8} (hmax : block.size ≤ maxInput)
    (hlimit : limit + matchMargin = block.size + 1) (hm : m.FoundAt block anchor found)
    (hbelow : table.Below (found + 1)) (hlow : low ≤ found)
    (hout : Holds out (before ++ literalBytes (m.toSequence block anchor).literals 0))
    (htotal : before ++ ((m.toSequence block anchor).toBytes ++
      (Search.after block table m.stop).output block a) = total)
    (hrounds : block.size - m.stop < rounds) :
    Attains capacity total.length
      (emit block limit (block.size - lastLiterals) rounds table found m.start
        (m.start - m.distance) before.length out) (Exit.Follows block a total low) := by
  induction rounds generalizing table found anchor m before out with
  | zero => omega
  | succ rounds ih =>
    have hle := hm.le_stop
    have hstopSize := hm.sound.stop_le
    have hmargin : matchMargin = 12 := rfl
    have hmin : minMatch = 4 := rfl
    have hword : m.stop < UInt32.size := by
      simp only [maxInput, UInt32.size] at *
      omega
    rw [emit]
    refine (attains_measured hmax hm hout htotal).bind fun r hr => ?_
    obtain ⟨stop, out'⟩ := r
    obtain ⟨rfl, hout'⟩ := hr
    rw [← List.append_assoc] at htotal
    generalize before ++ (m.toSequence block anchor).toBytes = written at hout' htotal
    dsimp only
    rw [if_neg (by omega)]
    by_cases hend : limit ≤ m.stop
    · rw [Search.output_after_of_end (by omega)] at htotal
      rw [if_pos hend]
      exact attains_pure ⟨by omega, written, hout', htotal⟩
    · have hmore : ¬ block.size < m.stop + matchMargin := by omega
      have hfiller : table.Below (m.stop - 2) := hbelow.mono (by omega)
      have hsettled : (Search.settled block table m.stop).Below m.stop :=
        hfiller.store (by omega) (by omega) _
      have hnext := hsettled.store (Nat.lt_succ_self _) hword (word32 block m.stop)
      rw [if_neg hend, settle_eq hfiller (by omega) (by omega) hword, pure_bind,
        probe_eq hsettled (by omega) hword, pure_bind]
      cases hc : Search.candidate? block (Search.settled block table m.stop) m.stop with
      | none =>
        rw [Search.output_after_of_none hmore hc] at htotal
        exact attains_pure ⟨by omega,
          { anchor_le := Nat.le_succ _
            pos_pos := Nat.succ_pos _
            pos_le := by omega
            below := hnext
            total_eq := ⟨written, hout', htotal⟩ }⟩
      | some candidate =>
        obtain ⟨-, hlt, hnear, heq⟩ := Search.candidate?_eq_some_iff.1 hc
        rw [Search.output_after_of_some hmore hc] at htotal
        have hm' := Search.foundAt_extend (Nat.le_refl _) hlt hnear heq (Nat.le_of_not_lt hmore)
        have hstart : (Search.extend block m.stop m.stop candidate).start = m.stop :=
          commonStart_self ..
        have hback : m.stop - (Search.extend block m.stop m.stop candidate).distance = candidate :=
          Nat.sub_sub_self (Nat.le_of_lt hlt)
        generalize Search.extend block m.stop m.stop candidate = m' at *
        have hrun : ByteArray.empty.data.toList = (m'.toSequence block m.stop).literals := by
          rw [Match.toSequence, hstart, Nat.sub_self]
          rfl
        refine (attains_literals_of_match hrun hout' htotal).bind fun r hr => ?_
        obtain ⟨place, out''⟩ := r
        obtain ⟨rfl, hout''⟩ := hr
        have hle' := hm'.le_stop
        have hrest := ih hm' hnext (by omega) hout'' htotal (by omega)
        rwa [hstart, hback] at hrest

/-! ## The rest of a block -/

/-- Write the matches of a block from `pos` on. The end of the last of them is handed back. -/
def encodeFrom (block : ByteArray) (a : Acceleration) (limit matchLimit : Nat) :
    (rounds : Nat) → Table → (pos anchor : Nat) → Sink capacity → Except Halt (Nat × Sink capacity)
  | 0, _, _, _, _ => throw (.fault .unfinished)
  | rounds + 1, table, pos, anchor, out => do
    match ← scan block limit (block.size + 1) table pos 1 (a.val <<< skipTrigger) with
    | none => return (anchor, out)
    | some hit =>
      let (start, candidate) ← catchUp block anchor (block.size + 1) hit.pos hit.candidate
      let run ← access (slice block anchor start)
      let (place, out) ← literals out run
      match ← emit block limit matchLimit (block.size + 1) hit.table hit.pos start candidate place
        out with
      | .ended anchor out => return (anchor, out)
      | .resumed table pos anchor out =>
        encodeFrom block a limit matchLimit rounds table pos anchor out

def encodeMatches (block : ByteArray) (a : Acceleration) (out : Sink capacity) :
    Except Halt (Nat × Sink capacity) :=
  if minInput ≤ block.size then do
    let last ← access (sub block.size matchMargin)
    let matchLimit ← access (sub block.size lastLiterals)
    let word ← wordAt block 0
    let slot ← slotOf word
    encodeFrom block a (last + 1) matchLimit (block.size + 1)
      ⟨Table.empty.slots.set slot 0 slot.isLt⟩ 1 0 out
  else return (0, out)

def encodeBlock (block : ByteArray) (a : Acceleration) (out : Sink capacity) :
    Except Halt (Sink capacity) := do
  let (anchor, out) ← encodeMatches block a out
  let run ← access (slice block anchor block.size)
  let (_, out) ← literals out run
  return out

/-- Encode a block at a level into a destination. What a refused program has written is of no
interest to anyone, so the destination is handed back as it was. -/
def compressInto (block : ByteArray) (level : Int32) (dst : Buffer capacity) :
    Except Halt (Outcome capacity) :=
  if maxInput < block.size then return ⟨.error .inputTooLarge, dst⟩
  else
    match encodeBlock block (.ofLevel level) (Sink.ofBuffer dst) with
    | .ok out => return ⟨.ok out.mark, out.buffer⟩
    | .error (.refused e) => return ⟨.error e, dst⟩
    | .error halt => throw halt

/-- **All matches of a block**, by induction on the rounds. -/
theorem attains_encodeFrom {limit rounds pos anchor : Nat} {table : Table} {out : Sink capacity}
    (hmax : block.size ≤ maxInput) (hlimit : limit + matchMargin = block.size + 1)
    (h : Resumed block a total table pos anchor out) (hrounds : block.size - pos < rounds) :
    Attains capacity total.length
      (encodeFrom block a limit (block.size - lastLiterals) rounds table pos anchor out)
      fun r => Ended block total r.1 r.2 := by
  induction rounds generalizing table pos anchor out with
  | zero => omega
  | succ rounds ih =>
    obtain ⟨hanchor, hpos, hle, hbelow, before, hout, htotal⟩ := h
    obtain ⟨r, hscan, hscanned⟩ := scan_spec (a := a) hmax hlimit hbelow hanchor hpos hle
      (Nat.lt_succ_of_le (Nat.sub_le ..) : block.size - pos < block.size + 1)
    rw [encodeFrom, show scan block limit (block.size + 1) table pos 1 (a.val <<< skipTrigger) =
      pure r from hscan, pure_bind]
    cases r with
    | none => exact attains_pure ⟨by omega, before, hout, (congrArg _ hscanned).symm.trans htotal⟩
    | some hit =>
      obtain ⟨hfrom, hmargin, hbelow', hlt, hnear, heq, houtput⟩ := hscanned
      rw [houtput] at htotal
      dsimp only at hfrom htotal ⊢
      have hm := Search.foundAt_extend (Nat.le_trans hanchor hfrom) hlt hnear heq hmargin
      have hstart := commonStart_le block anchor hit.pos hit.candidate
      have hback := le_commonStart_add block anchor hit.pos hit.candidate
      have hcandidate : hit.candidate - (hit.pos - commonStart block anchor hit.pos hit.candidate) =
          commonStart block anchor hit.pos hit.candidate - (hit.pos - hit.candidate) := by omega
      rw [catchUp_eq (by omega) (by omega) (by omega), pure_bind, hcandidate]
      dsimp only
      rw [access_slice (le_commonStart (Nat.le_trans hanchor hfrom)) (by omega), pure_bind]
      refine (attains_literals_of_match (toList_extract ..) hout htotal).bind fun r hr => ?_
      obtain ⟨place, out'⟩ := r
      obtain ⟨rfl, hout'⟩ := hr
      refine (attains_emit hmax hlimit hm hbelow' hfrom hout' htotal (by omega)).bind
        fun exit hexit => ?_
      cases exit with
      | ended anchor' out'' => exact attains_pure hexit
      | resumed table' pos' anchor' out'' =>
        obtain ⟨hlow, hresumed⟩ := hexit
        have hle' := hresumed.pos_le
        exact ih hresumed (by omega)

theorem attains_encodeMatches (hmax : block.size ≤ maxInput) (level : Int32)
    (dst : Buffer capacity) :
    Attains capacity (encoded block level).toBytes.length
      (encodeMatches block (.ofLevel level) (Sink.ofBuffer dst))
      fun r => Ended block (encoded block level).toBytes r.1 r.2 := by
  have hout : Holds (Sink.ofBuffer dst) [] := ⟨Sink.fits_ofBuffer dst, Sink.written_ofBuffer dst⟩
  have htotal := Search.output_start block level
  rw [encodeMatches]
  by_cases hlong : minInput ≤ block.size
  · have hmargin : matchMargin + 1 ≤ block.size := hlong
    have hlast : lastLiterals ≤ block.size := Nat.le_trans (by decide) hlong
    have htable : (⟨Table.empty.slots.set (Table.slot (word32 block 0)) 0
        (Table.slot (word32 block 0)).isLt⟩ : Table) = Table.empty := Table.store_empty_zero _
    rw [if_pos hlong, access_sub (Nat.le_of_succ_le hmargin), pure_bind, access_sub hlast,
      pure_bind, wordAt_of_le (Nat.le_trans (by decide) hlong), pure_bind, slotOf_eq, pure_bind,
      htable]
    refine attains_encodeFrom hmax (by omega)
      { anchor_le := Nat.zero_le _
        pos_pos := Nat.one_pos
        pos_le := Nat.le_trans (by decide) hlong
        below := Table.below_empty
        total_eq := ⟨[], hout, htotal⟩ } (by omega)
  · rw [if_neg hlong]
    have hdone : Search.start.step block (.ofLevel level) = .done :=
      Search.step_of_end (show block.size < minInput from Nat.not_le.1 hlong)
    rw [Search.output_of_done hdone] at htotal
    exact attains_pure ⟨Nat.zero_le _, [], hout, htotal⟩

theorem attains_encodeBlock (hmax : block.size ≤ maxInput) (level : Int32) (dst : Buffer capacity) :
    Attains capacity (encoded block level).toBytes.length
      (encodeBlock block (.ofLevel level) (Sink.ofBuffer dst))
      (Holds · (encoded block level).toBytes) := by
  rw [encodeBlock]
  refine (attains_encodeMatches hmax level dst).bind fun r hr => ?_
  obtain ⟨anchor, out⟩ := r
  obtain ⟨hle, before, hout, htotal⟩ := hr
  have hrun : (block.extract anchor block.size).data.toList = bytesFrom block anchor := by
    rw [toList_extract, ← length_bytesFrom, List.take_length]
  dsimp only at hle htotal ⊢
  rw [← hrun] at htotal
  rw [access_slice hle (Nat.le_refl _), pure_bind]
  refine (attains_literals hout (Nat.le_of_eq (congrArg _ htotal))).bind fun r hr => ?_
  obtain ⟨place, out'⟩ := r
  rw [htotal] at hr
  exact attains_pure hr.2

/-- **The encoder stays inside its arrays.** For every block, level and destination the checked
encoder has a result, and it is that of the encoder. -/
theorem compressInto_same (block : ByteArray) (level : Int32) (dst : Buffer capacity) :
    ∃ o, compressInto block level dst = .ok o ∧ o.Same (Lz4.compressInto block level dst) := by
  by_cases hmax : block.size ≤ maxInput
  · rw [compressInto, if_neg (Nat.not_lt.2 hmax)]
    have hresult : (Lz4.compressInto block level dst).result = _ := result_compressInto hmax dst
    rcases attains_encodeBlock hmax level dst with ⟨out, hout, hholds⟩ | ⟨hrefused, hroom⟩
    · have hyields : Outcome.Yields ⟨.ok out.mark, out.buffer⟩ (encoded block level).toBytes := by
        refine ⟨by rw [hholds.mark_eq], ?_⟩
        rw [← hholds.mark_eq]
        exact hholds.written
      rw [if_pos hyields.length_le] at hresult
      refine ⟨_, ?_, Outcome.same_of_yields hyields (yields_compressInto hresult)⟩
      rw [hout]
      rfl
    · rw [if_neg (Nat.not_le.2 hroom)] at hresult
      refine ⟨⟨.error .outputTooSmall, dst⟩, ?_, Outcome.same_of_error rfl hresult⟩
      rw [hrefused]
      rfl
  · have hlarge := Nat.not_le.1 hmax
    rw [compressInto, Lz4.compressInto, if_pos hlarge, if_pos hlarge]
    exact ⟨_, rfl, rfl, rfl⟩

end Checked

end BlockStream
