import BlockStream.Proofs.Lz4.Restrictions
import BlockStream.Proofs.Lz4.Unmatched

/-!
# Matches are as long as they can be

A match ends where it has to: forwards at the first byte that differs or where the last literals
begin, backwards at the first byte that differs, at the start of the block, or at the end of the
match before. None of it depends on the table or on the level.
-/

namespace BlockStream.Lz4

variable {block : ByteArray} {limit anchor pos candidate : Nat} {m : Match}

/-! ## What stops a comparison -/

theorem commonEnd_eq_or_ne (hle : candidate ≤ pos) (hlimit : pos ≤ limit) :
    commonEnd block limit pos candidate = limit ∨
      byteAt block (commonEnd block limit pos candidate) ≠
        byteAt block (commonEnd block limit pos candidate - (pos - candidate)) := by
  rw [commonEnd_eq_commonEndBytewise]
  fun_induction commonEndBytewise block limit pos candidate with
  | case1 pos candidate hlt hbyte ih =>
    have hrest := ih (by omega) hlt
    rwa [Nat.add_sub_add_right] at hrest
  | case2 pos candidate hlt hbyte =>
    right
    rwa [Nat.sub_sub_self hle]
  | case3 pos candidate hge => exact Or.inl (by omega)

theorem commonStart_eq_or_ne (hle : candidate ≤ pos) (hanchor : anchor ≤ pos) :
    commonStart block anchor pos candidate = anchor ∨
      commonStart block anchor pos candidate = pos - candidate ∨
      byteAt block (commonStart block anchor pos candidate - 1) ≠
        byteAt block (commonStart block anchor pos candidate - (pos - candidate) - 1) := by
  fun_induction commonStart block anchor pos candidate with
  | case1 pos candidate hagree ih =>
    rw [Nat.succ_sub_succ]
    exact ih (by omega) hagree.1
  | case2 pos candidate hdiffer =>
    by_cases hat : anchor ≤ pos
    · have hne : byteAt block pos ≠ byteAt block candidate := fun h => hdiffer ⟨hat, h⟩
      have hback : pos + 1 - (pos + 1 - (candidate + 1)) - 1 = candidate := by omega
      right
      right
      show byteAt block pos ≠ byteAt block (pos + 1 - (pos + 1 - (candidate + 1)) - 1)
      rwa [hback]
    · exact Or.inl (by omega)
  | case3 candidate pos hshort =>
    cases candidate with
    | zero => exact Or.inr (Or.inl rfl)
    | succ candidate =>
      cases pos with
      | zero => exact Or.inl (Nat.le_antisymm (Nat.zero_le _) hanchor)
      | succ pos => exact (hshort pos candidate rfl rfl).elim

/-! ## Matches -/

/-- A sound match that cannot be extended. Backwards only the bytes after `anchor` are free. -/
structure Match.Maximal (block : ByteArray) (anchor : Nat) (m : Match) : Prop
    extends m.Sound block anchor where
  forwards : m.stop + lastLiterals = block.size ∨
    byteAt block m.stop ≠ byteAt block (m.stop - m.distance)
  backwards : m.start = anchor ∨ m.start = m.distance ∨
    byteAt block (m.start - 1) ≠ byteAt block (m.start - m.distance - 1)

namespace Search

/-- **Four equal bytes extend to a match that cannot be extended any more.** -/
theorem maximal_extend (hanchor : anchor ≤ pos) (hlt : candidate < pos)
    (hmax : pos - candidate ≤ maxDistance) (hword : word32 block candidate = word32 block pos)
    (hsize : pos + matchMargin ≤ block.size) :
    (extend block anchor pos candidate).Maximal block anchor := by
  have hlimit := le_limit_of_margin hsize
  refine
    { sound_extend hanchor hlt hmax hword hsize with
      forwards := ?_
      backwards := commonStart_eq_or_ne (Nat.le_of_lt hlt) hanchor }
  have hle : candidate + minMatch ≤ pos + minMatch :=
    Nat.add_le_add_right (Nat.le_of_lt hlt) _
  have hend := @commonEnd_eq_or_ne block _ _ _ hle hlimit
  rw [Nat.add_sub_add_right, ← stop_extend block anchor] at hend
  rcases hend with hend | hne
  · left
    unfold lastLiterals at *
    omega
  · exact Or.inr hne

variable {a : Acceleration} {s s' : Search}

theorem maximal_of_hit (h : s.step block a = .hit m s') (hanchor : s.anchor ≤ s.pos) :
    m.Maximal block s.anchor := by
  obtain ⟨candidate, rfl, hlt, hmax, hword, hsize, -⟩ := exists_of_hit h
  exact maximal_extend hanchor hlt hmax hword hsize

end Search

/-- **All matches of a block are maximal.** -/
theorem maximal_findMatches (block : ByteArray) (a : Acceleration) :
    EveryMatch (Match.Maximal block) 0 (findMatches block a).toList :=
  everyMatch_findMatches Search.maximal_of_hit

/-! ## Sequences -/

/-- The position of the match of a sequence whose literals begin at `pos`. -/
def Sequence.matchStart (pos : Nat) (s : Sequence) : Nat := pos + s.literals.length

/-- The match of a sequence repeats bytes of `block`, where the literals of the sequence begin at
`pos`; and it is as long as it can be. It ends where the last literals begin or at a byte that
differs. If there are literals before it, it begins after a byte that differs, or as soon as there
is a byte to refer to. -/
structure Sequence.Maximal (block : ByteArray) (pos : Nat) (s : Sequence) : Prop where
  repeats : ∀ i < s.length,
    byteAt block (s.matchStart pos + i) = byteAt block (s.matchStart pos - s.distance + i)
  forwards : s.matchStart pos + s.length + lastLiterals = block.size ∨
    byteAt block (s.matchStart pos + s.length) ≠
      byteAt block (s.matchStart pos - s.distance + s.length)
  backwards : s.literals ≠ [] → s.matchStart pos = s.distance ∨
    byteAt block (s.matchStart pos - 1) ≠ byteAt block (s.matchStart pos - s.distance - 1)

theorem Match.Maximal.toSequence (h : m.Maximal block anchor) :
    (m.toSequence block anchor).Maximal block anchor := by
  have hstart : (m.toSequence block anchor).matchStart anchor = m.start := by
    rw [Sequence.matchStart, h.length_literals, Nat.add_sub_cancel' h.anchor_le]
  have hback := h.distance_le_start
  refine
    { repeats := fun i hi => ?_
      forwards := ?_
      backwards := fun hliterals => ?_ }
  · rw [hstart, h.agree (m.start + i) (Nat.le_add_right ..) (Nat.add_lt_add_left hi _)]
    exact congrArg _ (Nat.sub_add_comm hback)
  · rw [hstart]
    show m.stop + lastLiterals = block.size ∨
      byteAt block m.stop ≠ byteAt block (m.start - m.distance + m.length)
    rw [← Nat.sub_add_comm hback]
    exact h.forwards
  · rw [hstart]
    rcases h.backwards with hanchor | hrest
    · apply absurd (List.eq_nil_of_length_eq_zero _) hliterals
      rw [h.length_literals, hanchor, Nat.sub_self]
    · exact hrest

theorem maximal_encoded (block : ByteArray) (level : Int32) :
    EverySequence (Sequence.Maximal block) 0 (encoded block level).sequences :=
  everySequence_of_everyMatch (fun _ _ hm => ⟨hm.toSound, hm.toSequence⟩)
    (maximal_findMatches block _)

/-- **Every match that the encoder writes is real, and as long as it can be.** What it writes is one
block and no other, and in this block every match repeats bytes of the input and ends where this is
over. If no four bytes of the input stand twice in places that a match could connect, the block has
literals only. -/
theorem maximal_of_compressInto {level : Int32} {capacity n : Nat} {dst : Buffer capacity}
    (h : (compressInto block level dst).result = .ok n) :
    let written := ((compressInto block level dst).buffer.first n).data.toList
    ∃ b : Block, (∀ b' : Block, b'.toBytes = written ∧ b'.Valid ↔ b' = b) ∧
      b.decoded = block.data.toList ∧ b.Restricted ∧
      EverySequence (Sequence.Maximal block) 0 b.sequences ∧
      (Unmatched block → b = ⟨[], block.data.toList, 0⟩) := by
  intro written
  have hparse : (encoded block level).toBytes = written ∧ (encoded block level).Valid :=
    ⟨(toList_first_compressInto h).symm, valid_encoded block level⟩
  refine ⟨encoded block level, fun b' => ⟨fun hb' => ?_, ?_⟩, decoded_encoded block level,
    restricted_encoded block level, maximal_encoded block level,
    fun hunmatched => encoded_of_unmatched hunmatched level⟩
  · exact (Block.ends_zero_iff.2 hb').unique (Block.ends_zero_iff.2 hparse)
  · rintro rfl
    exact hparse

/-- At level 2 the first of these two matches is found one byte late and extended back, and the
second one begins where the first one ends. In scattered bytes there are no matches. -/
theorem maximal_of_compressInto_pair :
    let block : ByteArray := ⟨#[63, 97, 98, 45, 99, 100, 101, 102, 103, 104, 43, 97, 98, 45, 99,
      100, 101, 102, 103, 104, 99, 100, 101, 102, 103, 104, 61, 49, 50, 51, 52, 53]⟩
    let pair : List Sequence := [⟨[63, 97, 98, 45, 99, 100, 101, 102, 103, 104, 43], 10, 9⟩,
      ⟨[], 16, 6⟩]
    (compressInto block 2 (Buffer.zeros 24)).result = .ok 24 ∧
      EverySequence (Sequence.Maximal block) 0 pair ∧
      (compressInto (scattered 20) 2 (Buffer.zeros 22)).result = .ok 22 ∧
      ∃ b : Block, b.sequences = [] ∧ b.toBytes =
        ((compressInto (scattered 20) 2 (Buffer.zeros 22)).buffer.first 22).data.toList := by
  intro block pair
  have hwritten : (compressInto block 2 (Buffer.zeros 24)).result = .ok 24 ∧
      Block.toBytes ⟨pair, [61, 49, 50, 51, 52, 53], 0⟩ =
        ((compressInto block 2 (Buffer.zeros 24)).buffer.first 24).data.toList := by decide +kernel
  obtain ⟨hrun, hbytes⟩ := hwritten
  have hvalid : Block.Valid ⟨pair, [61, 49, 50, 51, 52, 53], 0⟩ := by
    simp [pair, Block.Valid, EverySequence, Sequence.Valid, Sequence.size, minMatch, maxDistance,
      fieldMax]
  have hrun' : (compressInto (scattered 20) 2 (Buffer.zeros 22)).result = .ok 22 := by
    have hsize : (scattered 20).size ≤ maxInput := by
      rw [size_scattered]
      decide
    rw [result_compressInto hsize, length_toBytes_of_unmatched (unmatched_scattered 20),
      size_scattered]
    rfl
  obtain ⟨b, hparse, -, -, hmaximal, -⟩ := maximal_of_compressInto hrun
  obtain rfl := (hparse _).1 ⟨hbytes, hvalid⟩
  obtain ⟨b', hparse', -, -, -, hliterals⟩ := maximal_of_compressInto hrun'
  refine ⟨hrun, hmaximal, hrun', b', ?_, ((hparse' b').2 rfl).1⟩
  rw [hliterals (unmatched_scattered 20)]

end BlockStream.Lz4
