import BlockStream.Bytes.LittleEndian
import BlockStream.Lz4.Length

/-!
# Decoding blocks

The decoder reads a block sequence by sequence and writes what the sequences stand for. Every
length and distance is checked before it is used.
-/

namespace BlockStream.Lz4

/-! ## Reading a sequence -/

/-- The literals of a sequence: the match field of its token, and where the literals lie. -/
structure Literals where
  field : Nat
  start : Nat
  length : Nat

@[inline] def Literals.stop (l : Literals) : Nat := l.start + l.length

/-- A reference back to decoded bytes, and the position after it. -/
structure Reference where
  distance : Nat
  length : Nat
  stop : Nat

/-- Read the token and the literals at `pos`, if they lie inside the block. -/
@[inline] def readLiterals (block : ByteArray) (pos : Nat) : Option Literals :=
  if h : pos < block.size then
    let token := block[pos]
    match readLength block (literalField token) (pos + 1) with
    | none => none
    | some r =>
      if r.stop + r.value ≤ block.size then some ⟨matchField token, r.stop, r.value⟩ else none
  else none

/-- Read the reference at `pos`. Its distance must be from 1 to the number of bytes `decoded`. -/
@[inline] def readReference (block : ByteArray) (field pos decoded : Nat) : Option Reference :=
  match word16? block pos with
  | none => none
  | some distance =>
    if distance = 0 ∨ decoded < distance then none
    else
      match readLength block field (pos + 2) with
      | none => none
      | some r => some ⟨distance, r.value + minMatch, r.stop⟩

theorem lt_of_readLiterals {block : ByteArray} {pos : Nat} {l : Literals}
    (h : readLiterals block pos = some l) : pos < l.start ∧ l.stop ≤ block.size := by
  unfold readLiterals at h
  split at h
  · next hpos =>
    simp only at h
    split at h
    · simp at h
    · next r hr =>
      have := readLength_le (by omega) hr
      split at h
      · next hle =>
        obtain rfl := Option.some.inj h
        exact ⟨by simp only; omega, hle⟩
      · simp at h
  · simp at h

theorem lt_of_readReference {block : ByteArray} {field pos decoded : Nat} {m : Reference}
    (h : readReference block field pos decoded = some m) :
    pos < m.stop ∧ m.stop ≤ block.size := by
  unfold readReference at h
  split at h
  · simp at h
  · next distance hd =>
    have hpos : pos + 1 < block.size := by
      unfold word16? at hd
      split at hd
      · assumption
      · simp at hd
    split at h
    · simp at h
    · split at h
      · simp at h
      · next r hr =>
        have := readLength_le (by omega) hr
        obtain rfl := Option.some.inj h
        simp only
        omega

/-! ## The decoder -/

/-- A decoder between two sequences. -/
structure Decoder (capacity : Nat) where
  /-- The position of the next sequence in the block. -/
  pos : Nat
  /-- The output so far. -/
  out : Sink capacity

namespace Decoder

variable {capacity : Nat}

inductive Step (capacity : Nat) where
  /-- Another sequence must follow. -/
  | more (d : Decoder capacity)
  /-- The block ends here, well or not. -/
  | done (result : Except BlockError Unit) (out : Sink capacity)

/-- Read and carry out one sequence. A block ends well exactly when it ends with literals. -/
@[inline] def step (block : ByteArray) (d : Decoder capacity) : Step capacity :=
  match readLiterals block d.pos with
  | none => .done (.error .malformedInput) d.out
  | some l =>
    if d.out.room < l.length then .done (.error .outputTooSmall) d.out
    else
      let out := d.out.pushSlice block l.start l.length
      if l.stop = block.size then .done (.ok ()) out
      else
        match readReference block l.field l.stop out.mark with
        | none => .done (.error .malformedInput) out
        | some m =>
          if out.room < m.length then .done (.error .outputTooSmall) out
          else .more ⟨m.stop, out.pushBack m.distance m.length⟩

theorem lt_of_step {block : ByteArray} {d d' : Decoder capacity}
    (h : d.step block = .more d') : d.pos < d'.pos ∧ d'.pos ≤ block.size := by
  unfold step at h
  split at h
  · simp at h
  · next l hl =>
    have hlit := lt_of_readLiterals hl
    split at h
    · simp at h
    · simp only at h
      split at h
      · simp at h
      · split at h
        · simp at h
        · next m hm =>
          have href := lt_of_readReference hm
          split at h
          · simp at h
          · obtain rfl := Step.more.inj h
            simp only [Literals.stop] at href hlit ⊢
            omega

def run (block : ByteArray) (d : Decoder capacity) : Outcome capacity :=
  match h : d.step block with
  | .more d' =>
    have := lt_of_step h
    run block d'
  | .done result out => ⟨result.map fun _ => out.mark, out.buffer⟩
termination_by block.size - d.pos

end Decoder

/-- Decode one complete block into a destination. -/
def decompressInto (block : ByteArray) {capacity : Nat} (dst : Buffer capacity) :
    Outcome capacity :=
  Decoder.run block ⟨0, Sink.ofBuffer dst⟩

/-- Decode one complete block that stands for at most `capacity` bytes. -/
def decompress (block : ByteArray) (capacity : Nat) : Except BlockError ByteArray :=
  (decompressInto block (Buffer.zeros capacity)).bytes

end BlockStream.Lz4
