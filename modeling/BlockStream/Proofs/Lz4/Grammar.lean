import BlockStream.Proofs.Lz4.Copy
import BlockStream.Proofs.Lz4.Reading

/-!
# The grammar of blocks

`Block.Ends b source pos mark`: from `pos` on, the rest of `source` is the block `b`, where `mark`
bytes were decoded before. So a decoder can be followed from one sequence to the next.
-/

namespace BlockStream.Lz4

variable {source : ByteArray} {pos stop stop' mark : Nat} {s s' : Sequence} {ss : List Sequence}
  {last : List UInt8} {spare : Nat}

/-! ## Sizes -/

@[simp] theorem Sequence.length_decoded (s : Sequence) (out : List UInt8) :
    (s.decoded out).length = out.length + s.size := by
  rw [Sequence.decoded, length_copyBack, List.length_append, Sequence.size, Nat.add_assoc]

@[simp] theorem length_foldl_decoded (ss : List Sequence) (out : List UInt8) :
    (ss.foldl Sequence.decoded out).length = out.length + totalSize ss := by
  induction ss generalizing out with
  | nil => rfl
  | cons s ss ih =>
    rw [List.foldl_cons, ih, Sequence.length_decoded, totalSize, Nat.add_assoc]

theorem prefix_foldl_decoded (ss : List Sequence) (out : List UInt8) :
    out <+: ss.foldl Sequence.decoded out := by
  induction ss generalizing out with
  | nil => exact List.prefix_rfl
  | cons s ss ih =>
    have hliterals : out <+: out ++ s.literals := List.prefix_append ..
    exact (hliterals.trans (prefix_copyBack ..)).trans (ih _)

@[simp] theorem Block.length_decoded (b : Block) : b.decoded.length = b.size := by
  rw [Block.decoded, List.length_append, length_foldl_decoded, List.length_nil, Nat.zero_add,
    Block.size]

theorem Block.size_cons (s : Sequence) (ss : List Sequence) (last : List UInt8) (spare : Nat) :
    Block.size ⟨s :: ss, last, spare⟩ = s.size + Block.size ⟨ss, last, spare⟩ := by
  rw [Block.size, Block.size, totalSize, Nat.add_assoc]

theorem Block.toBytes_cons (s : Sequence) (ss : List Sequence) (last : List UInt8) (spare : Nat) :
    Block.toBytes ⟨s :: ss, last, spare⟩ = s.toBytes ++ Block.toBytes ⟨ss, last, spare⟩ := by
  rw [Block.toBytes, List.flatMap_cons, List.append_assoc]
  rfl

/-! ## Blocks at the end of an array -/

/-- The rest of `source` is the block `b`, where `mark` bytes are decoded before it. -/
def Block.Ends (b : Block) (source : ByteArray) (pos mark : Nat) : Prop :=
  Segment source pos source.size b.toBytes ∧
    EverySequence Sequence.Valid mark b.sequences ∧ b.spare ≤ fieldMax

theorem Block.ends_zero_iff {b : Block} :
    b.Ends source 0 0 ↔ b.toBytes = source.data.toList ∧ b.Valid :=
  and_congr_left fun _ => segment_zero_iff

theorem Block.ends_nil_iff :
    Block.Ends ⟨[], last, spare⟩ source pos mark ↔
      Segment source pos source.size (literalBytes last spare) ∧ spare ≤ fieldMax := by
  simp [Block.Ends, Block.toBytes, EverySequence]

theorem Block.ends_cons_iff :
    Block.Ends ⟨s :: ss, last, spare⟩ source pos mark ↔
      ∃ mid, Segment source pos mid s.toBytes ∧ s.Valid mark ∧
        Block.Ends ⟨ss, last, spare⟩ source mid (mark + s.size) := by
  rw [Block.Ends, Block.toBytes_cons, segment_append_iff, EverySequence]
  constructor
  · rintro ⟨⟨mid, hs, hrest⟩, ⟨hvalid, hvalids⟩, hspare⟩
    exact ⟨mid, hs, hvalid, hrest, hvalids, hspare⟩
  · rintro ⟨mid, hs, hvalid, hrest, hvalids, hspare⟩
    exact ⟨⟨mid, hs, hrest⟩, ⟨hvalid, hvalids⟩, hspare⟩

/-! ## The two halves of a sequence -/

/-- The token of a sequence has the field `min excess fieldMax` for its match. -/
theorem segment_toBytes_iff :
    Segment source pos stop s.toBytes ↔ ∃ mid,
      Segment source pos mid (literalBytes s.literals (min (s.length - minMatch) fieldMax)) ∧
        Segment source mid stop (referenceBytes s.distance (s.length - minMatch)) := by
  rw [Sequence.toBytes, segment_append_iff, literalBytes_min]

theorem lt_of_segment_referenceBytes {distance excess : Nat}
    (h : Segment source pos stop (referenceBytes distance excess)) :
    pos < stop ∧ pos < source.size := by
  obtain ⟨hdist, htail⟩ := segment_referenceBytes_iff.1 h
  have := htail.start_le
  obtain ⟨hpos, -⟩ := segment_cons_iff.1 hdist
  exact ⟨by omega, hpos⟩

/-! ## Unique parses -/

theorem Sequence.unique (hs : s.Valid mark) (hs' : s'.Valid mark)
    (h : Segment source pos stop s.toBytes) (h' : Segment source pos stop' s'.toBytes) :
    s = s' ∧ stop = stop' := by
  obtain ⟨mid, hlits, href⟩ := segment_toBytes_iff.1 h
  obtain ⟨mid', hlits', href'⟩ := segment_toBytes_iff.1 h'
  obtain ⟨hl, hfield, rfl⟩ :=
    literalBytes_unique (Nat.min_le_right ..) (Nat.min_le_right ..) hlits hlits'
  obtain ⟨hd, hn, hstop⟩ := referenceBytes_unique hs.2.2.1 hs'.2.2.1 hfield href href'
  obtain ⟨lits, distance, length⟩ := s
  obtain ⟨lits', distance', length'⟩ := s'
  have := hs.1
  have := hs'.1
  simp only at *
  refine ⟨?_, hstop⟩
  rw [Sequence.mk.injEq]
  exact ⟨hl, hd, by omega⟩

theorem not_segment_toBytes_of_literals {field : Nat} (hfield : field ≤ fieldMax)
    (hl : Segment source pos source.size (literalBytes last field)) :
    ¬ Segment source pos stop s.toBytes := by
  intro h
  obtain ⟨mid, hlits, href⟩ := segment_toBytes_iff.1 h
  obtain ⟨-, -, rfl⟩ := literalBytes_unique hfield (Nat.min_le_right ..) hl hlits
  exact Nat.lt_irrefl _ (lt_of_segment_referenceBytes href).2

/-- **A parse is unique.** -/
theorem Block.Ends.unique {b b' : Block} (h : b.Ends source pos mark)
    (h' : b'.Ends source pos mark) : b = b' := by
  obtain ⟨ss, last, spare⟩ := b
  obtain ⟨ss', last', spare'⟩ := b'
  -- The first sequences are equal, and none stands where the other parse has its last literals.
  induction ss generalizing pos mark ss' with
  | nil =>
    obtain ⟨hl, hspare⟩ := Block.ends_nil_iff.1 h
    cases ss' with
    | nil =>
      obtain ⟨hl', hspare'⟩ := Block.ends_nil_iff.1 h'
      obtain ⟨rfl, rfl, -⟩ := literalBytes_unique hspare hspare' hl hl'
      rfl
    | cons s' ss' =>
      obtain ⟨mid, hs', -⟩ := Block.ends_cons_iff.1 h'
      exact absurd hs' (not_segment_toBytes_of_literals hspare hl)
  | cons s ss ih =>
    obtain ⟨mid, hs, hvalid, hrest⟩ := Block.ends_cons_iff.1 h
    cases ss' with
    | nil =>
      obtain ⟨hl', hspare'⟩ := Block.ends_nil_iff.1 h'
      exact absurd hs (not_segment_toBytes_of_literals hspare' hl')
    | cons s' ss' =>
      obtain ⟨mid', hs', hvalid', hrest'⟩ := Block.ends_cons_iff.1 h'
      obtain ⟨rfl, rfl⟩ := Sequence.unique hvalid hvalid' hs hs'
      have := ih hrest ss' hrest'
      rw [Block.mk.injEq] at this ⊢
      exact ⟨by rw [this.1], this.2⟩

end BlockStream.Lz4
