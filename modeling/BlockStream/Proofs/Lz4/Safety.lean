import BlockStream.Bytes.Checked
import BlockStream.Proofs.Lz4.Decoding

/-!
# The decoder stays inside its arrays

The decoder with checked accesses and an allowance of rounds for each loop, on the words of a
machine. Some sums are looked at, and one that is not a word makes the block malformed; where
there is no look, it is a fault.
-/

namespace BlockStream

open Lz4

variable {block : ByteArray} {capacity : Nat}

namespace Lz4.Decoder

variable {d d' : Decoder capacity}

/-- What follows from a step, once a match that ends the block counts as an error. -/
def Step.settle (block : ByteArray) : Step capacity → Step capacity
  | .more d => if block.size ≤ d.pos then .done (.error .malformedInput) d.out else .more d
  | .done result out => .done result out

theorem step_of_le (h : block.size ≤ d.pos) :
    d.step block = .done (.error .malformedInput) d.out := by
  unfold step readLiterals
  rw [dif_neg (Nat.not_lt.2 h)]

end Lz4.Decoder

theorem Lz4.le_capacity_of_decompressInto {dst : Buffer capacity} {n : Nat}
    (h : (decompressInto block dst).result = .ok n) : n ≤ capacity := by
  obtain ⟨b, hbytes, hvalid, hroom⟩ := valid_of_decompressInto h
  have hy := yields_decompressInto hbytes hvalid dst hroom
  rw [Except.ok.inj (h.symm.trans hy.1)]
  exact hy.length_le

namespace Checked

variable {words : Words}

/-! ## Writing a sequence -/

def pushSlice (s : Sink capacity) (source : ByteArray) (start length : Nat) :
    Except Fault (Sink capacity) := do
  let buffer ← blit s.buffer s.mark source start length
  return ⟨buffer, s.mark + length⟩

def pushBack (s : Sink capacity) (distance length : Nat) : Except Fault (Sink capacity) := do
  let start ← sub s.mark distance
  if length ≤ distance then
    let piece ← slice s.buffer.bytes start (start + length)
    let buffer ← blit s.buffer s.mark piece 0 length
    return ⟨buffer, s.mark + length⟩
  else
    let buffer ← copyBytes s.buffer start s.mark length
    return ⟨buffer, s.mark + length⟩

section Writes

variable {s : Sink capacity} {source : ByteArray} {start length distance : Nat}

theorem pushSlice_eq (hsource : start + length ≤ source.size) (hroom : s.mark + length ≤ capacity) :
    pushSlice s source start length = pure (s.pushSlice source start length) := by
  rw [pushSlice, blit_of_le hroom hsource]
  rfl

/-- **Both ways to copy a match stay inside the destination.** -/
theorem pushBack_eq (hdistance : distance ≤ s.mark) (hroom : s.mark + length ≤ capacity) :
    pushBack s distance length = pure (s.pushBack distance length) := by
  rw [pushBack, Sink.pushBack, sub_of_le hdistance, pure_bind]
  have hsize := s.buffer.size_eq
  split
  · have hpiece : (s.buffer.bytes.extract (s.mark - distance) (s.mark - distance + length)).size =
        length := by
      rw [ByteArray.size_extract]
      omega
    rw [slice_of_le (by omega) (by omega), pure_bind, blit_of_le hroom (by omega)]
    rfl
  · rw [copyBytes_of_le (by omega) hroom]
    rfl

end Writes

/-! ## The decoder -/

/-- Read the run of bytes at `pos` and add its number to `total`, unless that is no word. -/
def readRun (words : Words) (block : ByteArray) :
    (rounds pos total : Nat) → Except Fault (Option Reading)
  | 0, _, _ => throw .unfinished
  | rounds + 1, pos, total =>
    if pos < block.size then do
      let byte ← byte block pos
      let stop ← add words pos 1
      match sum? words total byte.toNat with
      | none => return none
      | some total =>
        if byte = 255 then readRun words block rounds stop total else return some ⟨total, stop⟩
    else return none

def readLength (words : Words) (block : ByteArray) (field pos : Nat) :
    Except Fault (Option Reading) := do
  if field = fieldMax then
    match ← readRun words block (block.size + 1) pos 0 with
    | none => return none
    | some r =>
      let value ← add words field r.value
      return some ⟨value, r.stop⟩
  else return some ⟨field, pos⟩

def readLiterals (words : Words) (block : ByteArray) (pos : Nat) :
    Except Fault (Option Literals) := do
  let token ← byte block pos
  let start ← add words pos 1
  match ← readLength words block (literalField token) start with
  | none => return none
  | some r =>
    match sum? words r.stop r.value with
    | none => return none
    | some stop =>
      if stop ≤ block.size then return some ⟨matchField token, r.stop, r.value⟩ else return none

def readWord16 (words : Words) (block : ByteArray) (pos : Nat) : Except Fault (Option Nat) :=
  match sum? words pos 2 with
  | none => return none
  | some stop =>
    if stop ≤ block.size then do
      let pair ← slice block pos stop
      let low ← byte pair 0
      let high ← byte pair 1
      return some (low.toNat + 256 * high.toNat)
    else return none

def readReference (words : Words) (block : ByteArray) (field pos decoded : Nat) :
    Except Fault (Option Reference) := do
  match ← readWord16 words block pos with
  | none => return none
  | some distance =>
    let start ← add words pos 2
    if distance = 0 ∨ decoded < distance then return none
    else
      match ← readLength words block field start with
      | none => return none
      | some r =>
        let length ← add words r.value minMatch
        return some ⟨distance, length, r.stop⟩

/-- Carry out a match, which must not end the block. -/
def carryOut (words : Words) (block : ByteArray) (out : Sink capacity) (m : Reference) :
    Except Fault (Decoder.Step capacity) :=
  match sum? words out.mark m.length with
  | none => return .done (.error .malformedInput) out
  | some mark =>
    if capacity < mark then return .done (.error .outputTooSmall) out
    else do
      let out ← pushBack out m.distance m.length
      if block.size ≤ m.stop then return .done (.error .malformedInput) out
      else return .more ⟨m.stop, out⟩

/-- Read and carry out the reference at `pos`. -/
def refer (words : Words) (block : ByteArray) (out : Sink capacity) (field pos : Nat) :
    Except Fault (Decoder.Step capacity) := do
  match ← readReference words block field pos out.mark with
  | none => return .done (.error .malformedInput) out
  | some m => carryOut words block out m

def step (words : Words) (block : ByteArray) (d : Decoder capacity) :
    Except Fault (Decoder.Step capacity) := do
  match ← readLiterals words block d.pos with
  | none => return .done (.error .malformedInput) d.out
  | some l =>
    let mark ← add words d.out.mark l.length
    if capacity < mark then return .done (.error .outputTooSmall) d.out
    else
      let out ← pushSlice d.out block l.start l.length
      if l.stop = block.size then return .done (.ok ()) out
      else refer words block out l.field l.stop

/-- Decode the rest of the block in at most the given rounds. -/
def run (words : Words) (block : ByteArray) :
    (rounds : Nat) → Decoder capacity → Except Fault (Outcome capacity)
  | 0, _ => throw .unfinished
  | rounds + 1, d => do
    match ← step words block d with
    | .more d' => run words block rounds d'
    | .done result out => return ⟨result.map fun _ => out.mark, out.buffer⟩

def decompressInto (words : Words) (block : ByteArray) (dst : Buffer capacity) :
    Except Fault (Outcome capacity) :=
  if block.size = 0 then return ⟨.error .malformedInput, dst⟩
  else run words block block.size ⟨0, Sink.ofBuffer dst⟩

/-! ## Lengths -/

/-- What is read, if its length is a word. -/
def below {α : Type} (words : Words) (length : α → Nat) (y : Option α) : Option α :=
  y.filter (words.Has <| length ·)

theorem below_some {α : Type} {length : α → Nat} (a : α) :
    below words length (some a) = if words.Has (length a) then some a else none := by
  rw [below, Option.filter_some]
  simp only [decide_eq_true_eq]

theorem below_all {α : Type} {length : α → Nat} (y : Option α) : below .all length y = y := by
  cases y with
  | none => rfl
  | some a => exact (below_some a).trans (if_pos (Words.has_all _))

theorem below_readRun_of_not_has {pos total : Nat} (h : ¬ words.Has total) :
    below words Reading.value (Lz4.readRun block pos total) = none := by
  cases hr : Lz4.readRun block pos total with
  | none => rfl
  | some r =>
    obtain ⟨n, hvalue, -⟩ := readRun_eq_some_iff.1 hr
    rw [below_some, if_neg fun hhas => h (hhas.mono (by omega))]

/-- **A run is read as before, if its number is a word.** -/
theorem readRun_eq (hblock : words.Has block.size) {rounds pos total : Nat}
    (hrounds : block.size - pos < rounds) :
    readRun words block rounds pos total =
      pure (below words Reading.value (Lz4.readRun block pos total)) := by
  induction rounds generalizing pos total with
  | zero => omega
  | succ rounds ih =>
    rw [readRun, Lz4.readRun]
    by_cases hpos : pos < block.size
    · rw [if_pos hpos, dif_pos hpos, byte_of_lt hpos, pure_bind, byteAt_of_lt hpos,
        add_of_has (hblock.mono hpos), pure_bind]
      dsimp only
      by_cases hsum : words.Has (total + block[pos].toNat)
      · rw [sum?_of_has hsum]
        dsimp only
        by_cases hfull : block[pos] = 255
        · rw [if_pos hfull, if_pos hfull, ih (by omega), hfull]
          rfl
        · rw [if_neg hfull, if_neg hfull, below_some, if_pos hsum]
      · rw [sum?_of_not_has hsum]
        by_cases hfull : block[pos] = 255
        · have hlarge : ¬ words.Has (total + 255) := by rwa [hfull] at hsum
          rw [if_pos hfull, below_readRun_of_not_has hlarge]
        · rw [if_neg hfull, below_some, if_neg hsum]
    · rw [if_neg hpos, dif_neg hpos]
      rfl

theorem readRun_add (block : ByteArray) (pos total k : Nat) :
    Lz4.readRun block pos (k + total) =
      (Lz4.readRun block pos total).map fun r => ⟨k + r.value, r.stop⟩ := by
  fun_induction Lz4.readRun block pos total with
  | case1 pos total hpos byte full ih =>
    rw [Lz4.readRun, dif_pos hpos]
    dsimp only
    rw [if_pos full, ← ih, Nat.add_assoc]
  | case2 pos total hpos byte small =>
    rw [Lz4.readRun, dif_pos hpos]
    dsimp only
    rw [if_neg small, Nat.add_assoc]
    rfl
  | case3 pos total hpos => rw [Lz4.readRun, dif_neg hpos]; rfl

/-- The block has a run whose number is a word, and is none with a full field and the shortest
match added to it. -/
def Brims (words : Words) (block : ByteArray) : Prop :=
  ∃ pos stop n, Segment block pos stop (lengthBytes n) ∧
    words.Has n ∧ ¬ words.Has (n + fieldMax + minMatch)

theorem not_brims_all : ¬ Brims .all block := fun ⟨_, _, _, _, _, h⟩ => h (Words.has_all _)

/-- A part of a sequence is read on words as on numbers, if its length is a word, or it is turned
down. Otherwise there is a fault, and the block brims. -/
def Reads {α : Type} (words : Words) (block : ByteArray) (length : α → Nat) (y : Option α)
    (x : Except Fault (Option α)) : Prop :=
  x = pure (below words length y) ∨
    x = throw .overflow ∧ Brims words block ∧ ∃ a, y = some a ∧ ¬ words.Has (length a)

theorem brims_of_readLength {field pos : Nat} {r : Reading} (hfield : field ≤ fieldMax)
    (h : Lz4.readLength block field pos = some r) (hfull : fieldMax ≤ r.value)
    (hword : words.Has (r.value - fieldMax)) (hsum : ¬ words.Has (r.value + minMatch)) :
    Brims words block := by
  obtain ⟨-, htail⟩ := (readLength_eq_some_iff hfield).1 h
  rw [lengthTail, if_neg (Nat.not_lt.2 hfull)] at htail
  refine ⟨pos, r.stop, r.value - fieldMax, htail, hword, ?_⟩
  rwa [Nat.sub_add_cancel hfull]

/-- Where one part is read after another, its length is no smaller than that of the part before. -/
theorem Reads.bind {α β : Type} {length : α → Nat} {length' : β → Nat} {y : Option α}
    {x : Except Fault (Option α)} {z : Option β} {next : Option α → Except Fault (Option β)}
    (h : Reads words block length y x) (hnone : y = none → z = none) (hnext : next none = pure none)
    (hsome : ∀ a, y = some a → ∃ b, z = some b ∧ length a ≤ length' b ∧
      (words.Has (length a) → Reads words block length' (some b) (next (some a)))) :
    Reads words block length' z (x >>= next) := by
  obtain rfl | ⟨rfl, hbrims, a, hy, hlarge⟩ := h
  · cases hy : y with
    | none =>
      rw [hnone hy]
      exact .inl hnext
    | some a =>
      obtain ⟨b, rfl, hle, hread⟩ := hsome a hy
      rw [below_some]
      by_cases hword : words.Has (length a)
      · rw [if_pos hword]
        exact hread hword
      · have hlarge : ¬ words.Has (length' b) := fun h => hword (h.mono hle)
        rw [if_neg hword]
        exact .inl (by rw [below_some, if_neg hlarge]; exact hnext)
  · obtain ⟨b, rfl, hle, -⟩ := hsome a hy
    exact .inr ⟨rfl, hbrims, b, rfl, fun h => hlarge (h.mono hle)⟩

/-- A sum is made without a look, and it is the length of what comes of it. -/
theorem reads_add {α : Type} {length : α → Nat} {m k : Nat} (build : Nat → α)
    (hlength : length (build (m + k)) = m + k)
    (hbrims : ¬ words.Has (m + k) → Brims words block) :
    Reads words block length (some (build (m + k))) (do
      let n ← add words m k
      return some (build n)) := by
  by_cases hsum : words.Has (m + k)
  · rw [add_of_has hsum]
    exact .inl (by rw [below_some, hlength, if_pos hsum]; rfl)
  · rw [add_of_not_has hsum]
    exact .inr ⟨rfl, hbrims hsum, _, rfl, by rwa [hlength]⟩

/-- **A length on words.** Only the sum of the field and the run is made without a look. -/
theorem reads_readLength (hblock : words.Has block.size) (hmax : words.Has fieldMax) {field : Nat}
    (hfield : field ≤ fieldMax) (pos : Nat) :
    Reads words block Reading.value (Lz4.readLength block field pos)
      (readLength words block field pos) := by
  by_cases hfull : field = fieldMax
  · subst hfull
    have hread : Lz4.readLength block fieldMax pos =
        (Lz4.readRun block pos 0).map fun r => ⟨fieldMax + r.value, r.stop⟩ := by
      rw [Lz4.readLength, if_pos rfl, ← readRun_add, Nat.add_zero]
    have hrun : Reads words block Reading.value (Lz4.readRun block pos 0)
        (readRun words block (block.size + 1) pos 0) := .inl (readRun_eq hblock (by omega))
    rw [readLength, if_pos rfl]
    refine hrun.bind (fun hr => by rw [hread, hr]; rfl) rfl fun r hr =>
      ⟨⟨fieldMax + r.value, r.stop⟩, by rw [hread, hr]; rfl, Nat.le_add_left .., fun hword => ?_⟩
    refine reads_add (Reading.mk · r.stop) rfl fun hsum => ?_
    rw [hr, Option.map_some] at hread
    refine brims_of_readLength (Nat.le_refl _) hread (Nat.le_add_right ..) ?_ ?_
    · rwa [Nat.add_sub_cancel_left]
    · exact fun h => hsum (h.mono (Nat.le_add_right ..))
  · rw [readLength, if_neg hfull, Lz4.readLength, if_neg hfull]
    exact .inl (by rw [below_some, if_pos (hmax.mono hfield)])

/-! ## Sequences -/

/-- **Literals on words.** A length that is no word is more than the block has, so that it is turned
down on numbers too. -/
theorem readLiterals_cases (hblock : words.Has block.size) (hmax : words.Has fieldMax) {pos : Nat}
    (hpos : pos < block.size) :
    readLiterals words block pos = pure (Lz4.readLiterals block pos) ∨
      readLiterals words block pos = throw .overflow ∧ Brims words block ∧
        Lz4.readLiterals block pos = none := by
  rw [readLiterals, Lz4.readLiterals, byte_of_lt hpos, pure_bind, add_of_has (hblock.mono hpos),
    pure_bind, dif_pos hpos, byteAt_of_lt hpos]
  dsimp only
  obtain hr | ⟨hr, hbrims, r, hread, hlarge⟩ :=
    reads_readLength hblock hmax (literalField_le block[pos]) (pos + 1)
  · left
    rw [hr, pure_bind]
    cases hread : Lz4.readLength block (literalField block[pos]) (pos + 1) with
    | none => rfl
    | some r =>
      dsimp only
      by_cases hsum : words.Has (r.stop + r.value)
      · rw [below_some, if_pos (hsum.mono (Nat.le_add_left ..))]
        dsimp only
        rw [sum?_of_has hsum]
        dsimp only
        split <;> rfl
      · have hout : ¬ r.stop + r.value ≤ block.size := fun h => hsum (hblock.mono h)
        rw [if_neg hout]
        by_cases hword : words.Has r.value
        · rw [below_some, if_pos hword]
          dsimp only
          rw [sum?_of_not_has hsum]
        · rw [below_some, if_neg hword]
  · right
    have hout : ¬ r.stop + r.value ≤ block.size := fun h =>
      hlarge (hblock.mono (Nat.le_of_add_left_le h))
    rw [hr, hread]
    exact ⟨rfl, hbrims, if_neg hout⟩

theorem readWord16_eq (hblock : words.Has block.size) (pos : Nat) :
    readWord16 words block pos = pure (word16? block pos) := by
  unfold readWord16 word16?
  by_cases h : pos + 2 ≤ block.size
  · have hsize : (block.extract pos (pos + 2)).size = 2 := by
      rw [ByteArray.size_extract]
      omega
    rw [sum?_of_has (hblock.mono h)]
    dsimp only
    rw [if_pos h, dif_pos (Nat.lt_of_succ_le h), slice_of_le (by omega) h, pure_bind,
      byte_of_lt (by omega), pure_bind, byte_of_lt (by omega), pure_bind,
      byteAt_extract (by omega), byteAt_extract (by omega), byteAt_of_lt (Nat.lt_of_succ_le h),
      byteAt_of_lt]
    rfl
  · rw [dif_neg (by omega)]
    by_cases hsum : words.Has (pos + 2)
    · rw [sum?_of_has hsum]
      dsimp only
      rw [if_neg h]
    · rw [sum?_of_not_has hsum]

/-- **A reference on words.** The shortest match is added without a look. -/
theorem reads_readReference (hblock : words.Has block.size) (hmax : words.Has (fieldMax + minMatch))
    {field : Nat} (hfield : field ≤ fieldMax) (pos decoded : Nat) :
    Reads words block Reference.length (Lz4.readReference block field pos decoded)
      (readReference words block field pos decoded) := by
  rw [readReference, Lz4.readReference, readWord16_eq hblock, pure_bind]
  cases hd : word16? block pos with
  | none => exact .inl rfl
  | some distance =>
    have hpos := (word16?_eq_some_iff.1 hd).1
    dsimp only
    rw [add_of_has (hblock.mono hpos), pure_bind]
    by_cases hrange : distance = 0 ∨ decoded < distance
    · rw [if_pos hrange, if_pos hrange]
      exact .inl rfl
    · have hread := reads_readLength hblock (hmax.mono (Nat.le_add_right ..)) hfield (pos + 2)
      rw [if_neg hrange, if_neg hrange]
      refine hread.bind (fun hr => by rw [hr]) rfl fun r hr =>
        ⟨⟨distance, r.value + minMatch, r.stop⟩, by rw [hr], Nat.le_add_right .., fun hword => ?_⟩
      refine reads_add (Reference.mk distance · r.stop) rfl fun hsum => ?_
      have hfull : fieldMax ≤ r.value := Nat.le_of_not_lt fun h => hsum (hmax.mono (by omega))
      exact brims_of_readLength hfield hr hfull (hword.mono (Nat.sub_le ..)) hsum

theorem distance_le_of_readReference {field pos decoded : Nat} {m : Reference}
    (h : Lz4.readReference block field pos decoded = some m) : m.distance ≤ decoded := by
  revert h
  fun_cases Lz4.readReference block field pos decoded with
  | case4 distance _ hdistance =>
    intro h
    cases h
    exact Nat.le_of_not_lt fun hlt => hdistance (.inr hlt)
  | _ => nofun

/-- A block states no length that is much larger than 255 times its size. -/
theorem length_le_of_readReference {field pos decoded : Nat} {m : Reference}
    (hfield : field ≤ fieldMax) (h : Lz4.readReference block field pos decoded = some m) :
    m.length ≤ 255 * block.size + fieldMax + minMatch := by
  obtain ⟨-, -, hseg⟩ := (readReference_eq_some_iff hfield).1 h
  have htail := (segment_referenceBytes_iff.1 hseg).2.1
  have hstop := (lt_of_readReference h).2
  unfold lengthTail at htail
  split at htail
  · omega
  · rw [length_lengthBytes] at htail
    omega

/-! ## Steps -/

/-- A step on words is the one on numbers, but for two cases: a match whose end is no word makes the
block malformed, where on numbers the destination is too small; and a block that brims may be a
fault, where on numbers the step fails. -/
def Follows (words : Words) (block : ByteArray) (y : Decoder.Step capacity)
    (x : Except Fault (Decoder.Step capacity)) : Prop :=
  x = pure y ∨
    (∃ out, x = pure (.done (.error .malformedInput) out) ∧
      y = .done (.error .outputTooSmall) out ∧
      ¬ words.Has (255 * block.size + fieldMax + minMatch + capacity)) ∨
    x = throw .overflow ∧ Brims words block ∧ ∃ e out, y = .done (.error e) out

theorem room_lt_of_not_has {out : Sink capacity} {n : Nat} (hcapacity : words.Has capacity)
    (hfits : out.Fits) (h : ¬ words.Has (out.mark + n)) : out.room < n :=
  (Decoder.room_lt_iff hfits).2 (Nat.lt_of_not_le fun hle => h (hcapacity.mono hle))

/-- A match whose end is no word is more than the destination has room for. -/
theorem follows_turnedDown (hcapacity : words.Has capacity) {out : Sink capacity}
    (hfits : out.Fits) {m : Reference} (hlength : m.length ≤ 255 * block.size + fieldMax + minMatch)
    (hsum : ¬ words.Has (out.mark + m.length)) :
    Follows words block
      (Decoder.Step.settle block (if out.room < m.length then .done (.error .outputTooSmall) out
        else .more ⟨m.stop, out.pushBack m.distance m.length⟩))
      (pure (.done (.error .malformedInput) out)) := by
  rw [if_pos (room_lt_of_not_has hcapacity hfits hsum)]
  refine .inr (.inl ⟨out, rfl, rfl, fun h => hsum (h.mono ?_)⟩)
  have hmark : out.mark ≤ capacity := hfits
  omega

theorem follows_carryOut (hcapacity : words.Has capacity) {out : Sink capacity}
    (hfits : out.Fits) {m : Reference} (hdistance : m.distance ≤ out.mark)
    (hlength : m.length ≤ 255 * block.size + fieldMax + minMatch) :
    Follows words block
      (Decoder.Step.settle block (if out.room < m.length then .done (.error .outputTooSmall) out
        else .more ⟨m.stop, out.pushBack m.distance m.length⟩))
      (carryOut words block out m) := by
  rw [carryOut]
  by_cases hsum : words.Has (out.mark + m.length)
  · rw [sum?_of_has hsum]
    dsimp only
    by_cases hroom : capacity < out.mark + m.length
    · rw [if_pos hroom, if_pos ((Decoder.room_lt_iff hfits).2 hroom)]
      exact .inl rfl
    · rw [if_neg hroom, if_neg (mt (Decoder.room_lt_iff hfits).1 hroom),
        pushBack_eq hdistance (Nat.not_lt.1 hroom), pure_bind, Decoder.Step.settle]
      left
      split <;> rfl
  · rw [sum?_of_not_has hsum]
    exact follows_turnedDown hcapacity hfits hlength hsum

/-- **A reference on words**, together with the match that it asks for. -/
theorem follows_refer (hmax : words.Has (fieldMax + minMatch)) (hblock : words.Has block.size)
    (hcapacity : words.Has capacity) {out : Sink capacity} (hfits : out.Fits) {field : Nat}
    (hfield : field ≤ fieldMax) (pos : Nat) :
    Follows words block ((Decoder.refer block out field pos).settle block)
      (refer words block out field pos) := by
  have hread := reads_readReference hblock hmax hfield pos out.mark
  rw [refer]
  cases href : Lz4.readReference block field pos out.mark with
  | none =>
    obtain hm | ⟨-, -, m, hm, -⟩ := href ▸ hread
    · rw [hm, Decoder.refer_of_none href]
      exact .inl rfl
    · cases hm
  | some m =>
    have hlength := length_le_of_readReference hfield href
    rw [Decoder.refer_of_some href]
    obtain hm | ⟨hm, hbrims, m', hm', hlarge⟩ := href ▸ hread
    · rw [hm, pure_bind, below_some]
      by_cases hword : words.Has m.length
      · rw [if_pos hword]
        exact follows_carryOut hcapacity hfits (distance_le_of_readReference href) hlength
      · rw [if_neg hword]
        exact follows_turnedDown hcapacity hfits hlength fun h =>
          hword (h.mono (Nat.le_add_left ..))
    · cases hm'
      have hroom := room_lt_of_not_has hcapacity hfits fun h =>
        hlarge (h.mono (Nat.le_add_left ..))
      rw [hm, if_pos hroom]
      exact .inr (.inr ⟨rfl, hbrims, _, _, rfl⟩)

/-- **One sequence on words.** The end of its literals is a word, as the literals lie in the block
and the bytes before them in the destination. -/
theorem follows_step (hmax : words.Has (fieldMax + minMatch))
    (hsize : words.Has (block.size + capacity)) {d : Decoder capacity} (hpos : d.pos < block.size)
    (hfits : d.out.Fits) :
    Follows words block ((d.step block).settle block) (step words block d) := by
  have hblock : words.Has block.size := hsize.mono (Nat.le_add_right ..)
  have hcapacity : words.Has capacity := hsize.mono (Nat.le_add_left ..)
  rw [step]
  obtain hl | ⟨hl, hbrims, hnone⟩ :=
    readLiterals_cases hblock (hmax.mono (Nat.le_add_right ..)) hpos
  · rw [hl, pure_bind]
    cases hread : Lz4.readLiterals block d.pos with
    | none =>
      rw [Decoder.step, hread]
      exact .inl rfl
    | some l =>
      have hstop : l.start + l.length ≤ block.size := (lt_of_readLiterals hread).2
      have hmark : d.out.mark ≤ capacity := hfits
      dsimp only
      rw [add_of_has (hsize.mono (by omega)), pure_bind]
      by_cases hroom : capacity < d.out.mark + l.length
      · rw [if_pos hroom, Decoder.step, hread]
        dsimp only
        rw [if_pos ((Decoder.room_lt_iff hfits).2 hroom)]
        exact .inl rfl
      · have hroom' := mt (Decoder.room_lt_iff hfits).1 hroom
        rw [if_neg hroom, pushSlice_eq hstop (Nat.not_lt.1 hroom), pure_bind]
        by_cases hend : l.stop = block.size
        · rw [if_pos hend, Decoder.step, hread]
          dsimp only
          rw [if_neg hroom', if_pos hend]
          exact .inl rfl
        · rw [if_neg hend, Decoder.step_eq_refer hread hroom' hend]
          exact follows_refer hmax hblock hcapacity (Nat.not_lt.1 hroom)
            (readLiterals_eq_some_iff.1 hread).1 l.stop
  · rw [hl, Decoder.step, hnone]
    exact .inr (.inr ⟨rfl, hbrims, _, _, rfl⟩)

/-! ## Runs -/

/-- An outcome on words is the one on numbers, but for the same two cases as a step. -/
def Ends (words : Words) (block : ByteArray) (o : Outcome capacity)
    (x : Except Fault (Outcome capacity)) : Prop :=
  x = pure o ∨
    (∃ o', x = pure o' ∧ o'.result = .error .malformedInput ∧
      o.result = .error .outputTooSmall ∧
      ¬ words.Has (255 * block.size + fieldMax + minMatch + capacity)) ∨
    x = throw .overflow ∧ Brims words block ∧ ∃ e, o.result = .error e

variable {d d' : Decoder capacity}

theorem Follows.ends {result : Except BlockError Unit} {out : Sink capacity}
    {x : Except Fault (Decoder.Step capacity)} (h : Follows words block (.done result out) x)
    (rounds : Nat) :
    Ends words block ⟨result.map fun _ => out.mark, out.buffer⟩ (x >>= fun
      | .more d' => run words block rounds d'
      | .done result out => return ⟨result.map fun _ => out.mark, out.buffer⟩) := by
  obtain rfl | ⟨out', rfl, hsmall, hlarge⟩ | ⟨rfl, hbrims, e, out', herror⟩ := h
  · exact .inl rfl
  · cases hsmall
    exact .inr (.inl ⟨_, rfl, rfl, rfl, hlarge⟩)
  · cases herror
    exact .inr (.inr ⟨rfl, hbrims, e, rfl⟩)

/-- **The rest of a block on words**, by induction on the rounds. -/
theorem ends_run (hmax : words.Has (fieldMax + minMatch))
    (hsize : words.Has (block.size + capacity)) {rounds : Nat} (hpos : d.pos < block.size)
    (hfits : d.out.Fits) (hrounds : block.size ≤ d.pos + rounds) :
    Ends words block (Decoder.run block d) (run words block rounds d) := by
  induction rounds generalizing d with
  | zero => omega
  | succ rounds ih =>
    rw [run]
    have hfollows := follows_step hmax hsize hpos hfits
    cases hnext : d.step block with
    | done result out =>
      rw [hnext] at hfollows
      rw [Decoder.run_of_done hnext]
      exact hfollows.ends rounds
    | more d' =>
      have hlt := Decoder.lt_of_step hnext
      rw [hnext, Decoder.Step.settle] at hfollows
      rw [Decoder.run_of_more hnext]
      by_cases hend : block.size ≤ d'.pos
      · rw [if_pos hend] at hfollows
        rw [Decoder.run_of_done (Decoder.step_of_le hend)]
        exact hfollows.ends rounds
      · rw [if_neg hend] at hfollows
        obtain hstep | ⟨out', -, hsmall, -⟩ | ⟨-, -, e, out', herror⟩ := hfollows
        · rw [hstep]
          exact ih (Nat.not_le.1 hend) (Decoder.fits_of_step hnext hfits) (by omega)
        · cases hsmall
        · cases herror

/-- **When words make a difference.** A destination that is too small may go unnoticed behind a
malformed block, and a block that brims may be a fault; both only where numbers fail too. -/
theorem ends_decompressInto (hmax : words.Has (fieldMax + minMatch))
    (hsize : words.Has (block.size + capacity)) (dst : Buffer capacity) :
    Ends words block (Lz4.decompressInto block dst) (decompressInto words block dst) := by
  rw [decompressInto, Lz4.decompressInto]
  by_cases hzero : block.size = 0
  · rw [if_pos hzero, Decoder.run_of_done (Decoder.step_of_le (Nat.le_of_eq hzero))]
    exact .inl rfl
  · rw [if_neg hzero]
    exact ends_run hmax hsize (Nat.pos_of_ne_zero hzero) (Sink.fits_ofBuffer dst)
      (Nat.le_add_left ..)

/-! ## Numbers without a limit -/

theorem readLiterals_all {pos : Nat} (hpos : pos < block.size) :
    readLiterals .all block pos = pure (Lz4.readLiterals block pos) := by
  obtain hread | ⟨-, hbrims, -⟩ := readLiterals_cases (Words.has_all _) (Words.has_all _) hpos
  · exact hread
  · exact absurd hbrims not_brims_all

theorem readReference_all {field : Nat} (hfield : field ≤ fieldMax) (pos decoded : Nat) :
    readReference .all block field pos decoded =
      pure (Lz4.readReference block field pos decoded) := by
  obtain hread | ⟨-, hbrims, -⟩ :=
    reads_readReference (Words.has_all _) (Words.has_all _) hfield pos decoded
  · rwa [below_all] at hread
  · exact absurd hbrims not_brims_all

theorem lt_of_readLiterals {pos : Nat} {l : Option Literals}
    (h : readLiterals words block pos = .ok l) : pos < block.size := by
  refine Decidable.by_contra fun hpos => ?_
  rw [readLiterals, byte, dif_neg hpos] at h
  cases h

theorem pos_of_carryOut {out : Sink capacity} {m : Reference}
    (h : carryOut words block out m = .ok (.more d')) : d'.pos = m.stop ∧ m.stop < block.size := by
  rw [carryOut] at h
  split at h
  · cases h
  · split at h
    · cases h
    · obtain ⟨pushed, -, h⟩ := exists_of_bind h
      split at h
      · cases h
      · next hmore =>
        cases h
        exact ⟨rfl, Nat.not_le.1 hmore⟩

theorem lt_of_refer {out : Sink capacity} {field pos : Nat} (hfield : field ≤ fieldMax)
    (h : refer .all block out field pos = .ok (.more d')) :
    pos < d'.pos ∧ d'.pos < block.size := by
  obtain ⟨m, hreference, h⟩ := exists_of_bind h
  rw [readReference_all hfield] at hreference
  cases m with
  | none => cases h
  | some m =>
    obtain ⟨hpos, hstop⟩ := pos_of_carryOut h
    rw [hpos]
    exact ⟨(Lz4.lt_of_readReference (Except.ok.inj hreference)).1, hstop⟩

/-- A round that is followed by another one has moved on, and not to the end of the block. -/
theorem lt_of_step (h : step .all block d = .ok (.more d')) :
    d.pos < d'.pos ∧ d'.pos < block.size := by
  obtain ⟨l, hliterals, h⟩ := exists_of_bind h
  rw [readLiterals_all (lt_of_readLiterals hliterals)] at hliterals
  cases l with
  | none => cases h
  | some l =>
    have hread := Except.ok.inj hliterals
    have hl : d.pos < l.start := (Lz4.lt_of_readLiterals hread).1
    have hstop : l.start ≤ l.stop := Nat.le_add_right ..
    obtain ⟨mark, -, h⟩ := exists_of_bind h
    split at h
    · cases h
    · obtain ⟨out, -, h⟩ := exists_of_bind h
      split at h
      · cases h
      · obtain ⟨hlt, hend⟩ := lt_of_refer (readLiterals_eq_some_iff.1 hread).1 h
        exact ⟨by omega, hend⟩

/-- **On numbers without a limit, nothing faults.** -/
theorem decompressInto_eq (block : ByteArray) (dst : Buffer capacity) :
    decompressInto .all block dst = pure (Lz4.decompressInto block dst) := by
  obtain hsame | ⟨-, -, -, -, hlarge⟩ | ⟨-, hbrims, -⟩ :=
    ends_decompressInto (Words.has_all _) (Words.has_all _) dst
  · exact hsame
  · exact absurd (Words.has_all _) hlarge
  · exact absurd hbrims not_brims_all

end Checked

end BlockStream
