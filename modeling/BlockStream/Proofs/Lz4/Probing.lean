import BlockStream.Proofs.Lz4.Guarded

/-!
# Looking for matches with checks

The search with a check at every step. A table remembers only positions before the one that is
looked up, which keeps every read of a candidate inside the block.
-/

namespace BlockStream

open Lz4

variable {block : ByteArray}

namespace Lz4

/-! ## Tables -/

namespace Table

variable {t : Table} {p q : Nat}

/-- All positions that the table remembers lie before `p`. -/
def Below (t : Table) (p : Nat) : Prop := ∀ slot, (t.slots.get slot).toNat < p

instance : Decidable (t.Below p) := inferInstanceAs (Decidable (∀ _, _))

theorem get_set (slots : Vector UInt32 slotCount) (slot other : Fin slotCount) (entry : UInt32) :
    (slots.set slot entry slot.isLt).get other =
      if slot = other then entry else slots.get other := by
  show (slots.set slot entry slot.isLt)[other.val] = _
  rw [Vector.getElem_set]
  simp only [Fin.ext_iff]
  rfl

theorem below_empty : empty.Below 1 := by
  intro slot
  show ((Vector.replicate slotCount (0 : UInt32))[slot.val]).toNat < 1
  simp

theorem Below.mono (h : t.Below p) (hle : p ≤ q) : t.Below q :=
  fun slot => Nat.lt_of_lt_of_le (h slot) hle

/-- **A position is remembered behind all others.** -/
theorem Below.store (h : t.Below p) (hlt : p < q) (hword : p < UInt32.size) (word : UInt32) :
    (t.store word p).Below q := by
  intro slot
  rw [Table.store, get_set]
  split
  · rwa [show p.toUInt32.toNat = p from UInt32.toNat_ofNat_of_lt' hword]
  · exact Nat.lt_trans (h slot) hlt

theorem store_empty_zero (word : UInt32) : empty.store word 0 = empty := by
  simp only [store, empty, Table.mk.injEq]
  apply Vector.ext
  intro i hi
  rw [Vector.getElem_set]
  split <;> simp

end Table

/-! ## Steps of a search -/

namespace Search

variable {a : Acceleration} {s : Search} {table : Table} {pos candidate : Nat}

/-- Where the table says that the four bytes at `pos` also stand, if they do, and not too far
before. -/
def candidate? (block : ByteArray) (table : Table) (pos : Nat) : Option Nat :=
  let candidate := table.lookup (word32 block pos)
  if candidate < pos ∧ pos - candidate ≤ maxDistance ∧
      word32 block candidate = word32 block pos then
    some candidate
  else none

theorem candidate?_eq_some_iff :
    candidate? block table pos = some candidate ↔
      table.lookup (word32 block pos) = candidate ∧ candidate < pos ∧
        pos - candidate ≤ maxDistance ∧ word32 block candidate = word32 block pos := by
  unfold candidate?
  constructor
  · intro h
    dsimp only at h
    split at h
    · next husable =>
      obtain rfl := Option.some.inj h
      exact ⟨rfl, husable⟩
    · cases h
  · rintro ⟨rfl, husable⟩
    exact if_pos husable

theorem step_of_end (h : block.size < s.pos + a.stride s.misses + (matchMargin - 1)) :
    s.step block a = .done := if_pos h

theorem step_of_candidate (h : ¬ block.size < s.pos + a.stride s.misses + (matchMargin - 1))
    (hc : candidate? block s.table s.pos = some candidate) :
    s.step block a = .hit (extend block s.anchor s.pos candidate)
      (after block (s.table.store (word32 block s.pos) s.pos)
        (extend block s.anchor s.pos candidate).stop) := by
  obtain ⟨rfl, husable⟩ := candidate?_eq_some_iff.1 hc
  exact (if_neg h).trans (if_pos husable)

theorem step_of_no_candidate (h : ¬ block.size < s.pos + a.stride s.misses + (matchMargin - 1))
    (hc : candidate? block s.table s.pos = none) :
    s.step block a = .miss ⟨s.table.store (word32 block s.pos) s.pos, s.anchor,
      s.pos + a.stride s.misses, s.misses + 1⟩ := by
  refine (if_neg h).trans (if_neg fun husable => ?_)
  cases hc.symm.trans (candidate?_eq_some_iff.2 ⟨rfl, husable⟩)

/-! ### Runs -/

variable {s' : Search} {m : Match} {found : Array Match}

theorem run_of_done (h : s.step block a = .done) : s.run block a found = found := by
  rw [run]
  split
  · rfl
  · next h' => cases h.symm.trans h'
  · next h' => cases h.symm.trans h'

theorem run_of_miss (h : s.step block a = .miss s') :
    s.run block a found = s'.run block a found := by
  rw [run]
  split
  · next h' => cases h.symm.trans h'
  · next h' => cases h.symm.trans h'; rfl
  · next h' => cases h.symm.trans h'

theorem run_of_hit (h : s.step block a = .hit m s') :
    s.run block a found = s'.run block a (found.push m) := by
  rw [run]
  split
  · next h' => cases h.symm.trans h'
  · next h' => cases h.symm.trans h'
  · next h' => cases h.symm.trans h'; rfl

/-- The matches that a search has still to find. -/
def rest (block : ByteArray) (a : Acceleration) (s : Search) : List Match :=
  (s.run block a #[]).toList

/-- Matches that were found before only stand in front. The induction is on the bytes ahead, because
the matches found so far change with every hit. -/
theorem toList_run (s : Search) (found : Array Match) :
    (s.run block a found).toList = found.toList ++ s.rest block a := by
  induction hn : block.size - s.pos using Nat.strongRecOn generalizing s found with
  | ind n ih =>
    cases hstep : s.step block a with
    | done => simp [rest, run_of_done hstep]
    | miss s' =>
      have hlt := lt_of_miss hstep
      rw [run_of_miss hstep, rest, run_of_miss hstep]
      exact ih _ (by omega) s' found rfl
    | hit m s' =>
      have hlt := lt_of_hit hstep
      rw [run_of_hit hstep, rest, run_of_hit hstep, ih _ (by omega) s' _ rfl,
        ih _ (by omega) s' _ rfl]
      simp

theorem rest_of_done (h : s.step block a = .done) : s.rest block a = [] := by
  rw [rest, run_of_done h]

theorem rest_of_miss (h : s.step block a = .miss s') : s.rest block a = s'.rest block a := by
  rw [rest, run_of_miss h, rest]

theorem rest_of_hit (h : s.step block a = .hit m s') :
    s.rest block a = m :: s'.rest block a := by
  rw [rest, run_of_hit h, toList_run]
  rfl

/-- The bytes that become of what follows the last match. -/
def output (block : ByteArray) (a : Acceleration) (s : Search) : List UInt8 :=
  (sequencesFrom block s.anchor (s.rest block a)).flatMap Sequence.toBytes ++
    literalBytes (bytesFrom block (anchorAfter s.anchor (s.rest block a))) 0

theorem output_of_done (h : s.step block a = .done) :
    s.output block a = literalBytes (bytesFrom block s.anchor) 0 := by
  rw [output, rest_of_done h]
  rfl

theorem output_of_miss (h : s.step block a = .miss s') :
    s.output block a = s'.output block a := by
  rw [output, output, rest_of_miss h, anchor_of_miss h]

theorem output_of_hit (h : s.step block a = .hit m s') (hanchor : s.anchor ≤ s.pos) :
    s.output block a = (m.toSequence block s.anchor).toBytes ++ s'.output block a := by
  rw [output, output, rest_of_hit h, (sound_of_hit h hanchor).2.1, sequencesFrom,
    List.flatMap_cons, List.append_assoc]
  rfl

theorem output_start (block : ByteArray) (level : Int32) :
    start.output block (.ofLevel level) = (encoded block level).toBytes := rfl

end Search

end Lz4

namespace Checked

/-! ## Reads -/

def wordAt (block : ByteArray) (pos : Nat) : Except Halt UInt32 := do
  let b0 ← access (byte block pos)
  let b1 ← access (byte block (pos + 1))
  let b2 ← access (byte block (pos + 2))
  let b3 ← access (byte block (pos + 3))
  return b0.toUInt32 + 256 * (b1.toUInt32 + 256 * (b2.toUInt32 + 256 * b3.toUInt32))

variable {words : Words} {table : Table} {limit anchor pos candidate start rounds : Nat}

theorem access_byte (h : pos < block.size) : access (byte block pos) = pure (byteAt block pos) := by
  rw [byte_of_lt h, access_pure]

theorem access_slice (h : start ≤ pos) (hpos : pos ≤ block.size) :
    access (slice block start pos) = pure (block.extract start pos) := by
  rw [slice_of_le h hpos, access_pure]

theorem access_sub {m n : Nat} (h : n ≤ m) : access (sub m n) = pure (m - n) := by
  rw [sub_of_le h, access_pure]

theorem wordAt_of_le (h : pos + 4 ≤ block.size) : wordAt block pos = pure (word32 block pos) := by
  rw [wordAt, access_byte (by omega), access_byte (by omega), access_byte (by omega),
    access_byte (by omega)]
  rfl

theorem doubleWord_of_le (hword : words.Has (pos + 8)) (h : pos + 8 ≤ block.size) :
    doubleWord words block pos = pure (word64 block pos) := by
  have hbyte (k : Nat) (hk : k < 8) : byteAt (block.extract pos (pos + 8)) k =
      byteAt block (pos + k) := byteAt_extract (by omega)
  have hword64 : word64 (block.extract pos (pos + 8)) 0 = word64 block pos := by
    simp only [word64, word32, Nat.zero_add, Nat.reduceAdd, hbyte _ (show 0 < 8 by decide),
      hbyte _ (show 1 < 8 by decide), hbyte _ (show 2 < 8 by decide),
      hbyte _ (show 3 < 8 by decide),
      hbyte _ (show 4 < 8 by decide), hbyte _ (show 5 < 8 by decide),
      hbyte _ (show 6 < 8 by decide), hbyte _ (show 7 < 8 by decide), Nat.add_zero, Nat.add_assoc]
  rw [doubleWord, add_of_has hword, pure_bind, slice_of_le (Nat.le_add_right ..) h, pure_bind,
    hword64]

/-! ## The table -/

def slotOf (word : UInt32) : Except Halt (Fin slotCount) :=
  let hash := ((word * 2654435761) >>> 20).toNat
  if h : hash < slotCount then pure ⟨hash, h⟩ else throw (.fault .outOfRange)

def remember (table : Table) (slot : Fin slotCount) (pos : Nat) : Except Halt Table :=
  if table.Below pos then do
    let entry ← narrow pos UInt32.size
    return ⟨table.slots.set slot entry.toUInt32 slot.isLt⟩
  else throw .ahead

/-- Look up the four bytes at `pos`, and remember this position for them. -/
def probe (block : ByteArray) (table : Table) (pos : Nat) : Except Halt (Option Nat × Table) := do
  let word ← wordAt block pos
  let slot ← slotOf word
  let candidate := (table.slots.get slot).toNat
  let table ← remember table slot pos
  if candidate < pos then
    let distance ← access (sub pos candidate)
    if distance ≤ maxDistance then
      let earlier ← wordAt block candidate
      if earlier = word then return (some candidate, table)
      else return (none, table)
    else return (none, table)
  else return (none, table)

theorem slotOf_eq (word : UInt32) : slotOf word = pure (Table.slot word) :=
  dif_pos (Table.slot word).isLt

theorem remember_of_below (h : table.Below pos) (hword : pos < UInt32.size) (word : UInt32) :
    remember table (Table.slot word) pos = pure (table.store word pos) := by
  rw [remember, if_pos h, narrow_of_lt hword]
  rfl

/-- **A look at the table stays inside the block**, because the candidate lies before the position
that is looked up. -/
theorem probe_eq (hbelow : table.Below pos) (hpos : pos + 4 ≤ block.size)
    (hword : pos < UInt32.size) :
    probe block table pos =
      pure (Search.candidate? block table pos, table.store (word32 block pos) pos) := by
  have hcandidate : (table.slots.get (Table.slot (word32 block pos))).toNat < pos := hbelow _
  rw [probe, wordAt_of_le hpos, pure_bind, slotOf_eq, pure_bind, remember_of_below hbelow hword,
    pure_bind, if_pos hcandidate, access_sub (Nat.le_of_lt hcandidate), pure_bind,
    wordAt_of_le (by omega), pure_bind, Search.candidate?, Table.lookup]
  by_cases hdistance : pos - (table.slots.get (Table.slot (word32 block pos))).toNat ≤ maxDistance
  · rw [if_pos hdistance]
    by_cases heq : word32 block (table.slots.get (Table.slot (word32 block pos))).toNat =
        word32 block pos
    · rw [if_pos heq, if_pos ⟨hcandidate, hdistance, heq⟩]
    · rw [if_neg heq, if_neg fun h => heq h.2.2]
  · rw [if_neg hdistance, if_neg fun h => hdistance h.2.1]

/-! ## The ends of a match -/

/-- Move a match and its candidate back as long as the bytes before them agree. -/
def catchUp (block : ByteArray) (anchor : Nat) :
    (rounds pos candidate : Nat) → Except Halt (Nat × Nat)
  | 0, _, _ => throw (.fault .unfinished)
  | rounds + 1, pos, candidate =>
    if anchor < pos ∧ 0 < candidate then do
      let before ← access (sub pos 1)
      let earlier ← access (sub candidate 1)
      let value ← access (byte block before)
      let value' ← access (byte block earlier)
      if value = value' then catchUp block anchor rounds before earlier
      else return (pos, candidate)
    else return (pos, candidate)

/-- **The way back stays inside the block.** -/
theorem catchUp_eq (hpos : pos ≤ block.size) (hlt : candidate ≤ pos) (hrounds : pos < rounds) :
    catchUp block anchor rounds pos candidate =
      pure (commonStart block anchor pos candidate,
        candidate - (pos - commonStart block anchor pos candidate)) := by
  induction rounds generalizing pos candidate with
  | zero => omega
  | succ rounds ih =>
    rw [catchUp]
    match pos, candidate with
    | 0, candidate => simp [commonStart]
    | pos + 1, 0 => simp [commonStart]
    | pos + 1, candidate + 1 =>
      have hle := commonStart_le block anchor pos candidate
      by_cases hanchor : anchor ≤ pos
      · rw [if_pos (by omega), access_sub (by omega), pure_bind, access_sub (by omega), pure_bind,
          Nat.add_sub_cancel, Nat.add_sub_cancel, access_byte (by omega), pure_bind,
          access_byte (by omega), pure_bind, commonStart]
        by_cases hbyte : byteAt block pos = byteAt block candidate
        · rw [if_pos hbyte, if_pos ⟨hanchor, hbyte⟩, ih (by omega) (by omega) (by omega)]
          congr 2
          omega
        · rw [if_neg hbyte, if_neg fun h => hbyte h.2, Nat.sub_self, Nat.sub_zero]
      · rw [if_neg (by omega), commonStart, if_neg fun h => hanchor h.1, Nat.sub_self,
          Nat.sub_zero]

theorem leadingZeroBytes_le (bytes : Nat) (word : UInt64) :
    Lz4.leadingZeroBytes bytes word ≤ bytes := by
  induction bytes generalizing word with
  | zero => exact Nat.le_refl 0
  | succ bytes ih =>
    rw [leadingZeroBytes]
    split
    · exact Nat.succ_le_succ (ih _)
    · exact Nat.zero_le _

theorem countBytes_eq (hlimit : limit ≤ block.size) (hwords : words.Has limit)
    (hle : candidate ≤ pos) (hstart : start ≤ pos) (hrounds : limit - pos < rounds) :
    countBytes words block limit start rounds pos candidate =
      pure (commonEndBytewise block limit pos candidate - start) := by
  induction rounds generalizing pos candidate with
  | zero => omega
  | succ rounds ih =>
    rw [countBytes, commonEndBytewise]
    by_cases hpos : pos < limit
    · rw [if_pos hpos, if_pos hpos, byte_of_lt (by omega), pure_bind, byte_of_lt (by omega),
        pure_bind]
      split
      · rw [add_of_has (hwords.mono hpos), pure_bind, add_of_has (hwords.mono (by omega)),
          pure_bind, ih (by omega) (by omega) (by omega)]
      · exact sub_of_le hstart
    · rw [if_neg hpos, if_neg hpos, sub_of_le hstart]

theorem countFrom_eq (hlimit : limit ≤ block.size) (hwords : words.Has (limit + 8))
    (hpos : words.Has (pos + 8)) (hle : candidate ≤ pos) (hstart : start ≤ pos)
    (hrounds : limit - pos < rounds) :
    countFrom words block limit start rounds pos candidate =
      pure (commonEnd block limit pos candidate - start) := by
  induction rounds generalizing pos candidate with
  | zero => omega
  | succ rounds ih =>
    have hcandidate : words.Has (candidate + 8) := hpos.mono (by omega)
    rw [countFrom, commonEnd, add_of_has hpos, pure_bind]
    by_cases hmore : pos + 8 ≤ limit
    · rw [if_pos hmore, if_pos hmore, doubleWord_of_le hpos (by omega), pure_bind,
        doubleWord_of_le hcandidate (by omega), pure_bind]
      dsimp only
      split
      · rw [add_of_has hcandidate, pure_bind]
        exact ih (hwords.mono (by omega)) (by omega) (by omega) (by omega)
      · have hzeros := leadingZeroBytes_le 8 (word64 block pos ^^^ word64 block candidate)
        rw [sub_of_le hstart, pure_bind, add_of_has (hpos.mono (by omega)), Nat.sub_add_comm hstart]
    · rw [if_neg hmore, if_neg hmore,
        countBytes_eq hlimit (hwords.mono (Nat.le_add_right ..)) hle hstart (by omega)]

/-- **The way forward stays inside the block**, and is measured with words. -/
theorem count_eq (hlimit : limit ≤ block.size) (hwords : words.Has (limit + 8))
    (hpos : words.Has (pos + 8)) (hle : candidate ≤ pos) :
    count words block limit pos candidate = pure (commonLength block limit pos candidate) :=
  countFrom_eq hlimit hwords hpos hle (Nat.le_refl pos) (by omega)

/-! ## The scan -/

structure Hit where
  table : Table
  pos : Nat
  candidate : Nat

/-- Look for a match, with steps that grow after misses: the next one has `step` bytes, and those
after it one more for each rise of `next` by a power of two. No match may start at `limit`. -/
def scan (block : ByteArray) (limit : Nat) :
    (rounds : Nat) → Table → (pos step next : Nat) → Except Halt (Option Hit)
  | 0, _, _, _, _ => throw (.fault .unfinished)
  | rounds + 1, table, pos, step, next => do
    let ahead ← narrow (pos + step) UInt32.size
    if limit < ahead then return none
    else
      match ← probe block table pos with
      | (some candidate, table) => return some ⟨table, pos, candidate⟩
      | (none, table) =>
        let following ← narrow (next + 1) UInt32.size
        scan block limit rounds table ahead (next >>> skipTrigger) following

variable {a : Acceleration} {s s' : Search}

/-- What a hit has to do with the search that it is a hit of. -/
structure Hit.Ends (block : ByteArray) (a : Acceleration) (s : Search) (hit : Hit) : Prop where
  pos_le : s.pos ≤ hit.pos
  margin_le : hit.pos + matchMargin ≤ block.size
  below : hit.table.Below (hit.pos + 1)
  candidate_lt : hit.candidate < hit.pos
  distance_le : hit.pos - hit.candidate ≤ maxDistance
  word_eq : word32 block hit.candidate = word32 block hit.pos
  output_eq : s.output block a =
    ((Search.extend block s.anchor hit.pos hit.candidate).toSequence block s.anchor).toBytes ++
      (Search.after block hit.table
        (Search.extend block s.anchor hit.pos hit.candidate).stop).output block a

/-- What a scan finds: the next match of the search, or that there is none. -/
def Scanned (block : ByteArray) (a : Acceleration) (s : Search) : Option Hit → Prop
  | none => s.output block a = literalBytes (bytesFrom block s.anchor) 0
  | some hit => hit.Ends block a s

theorem scanned_of_miss {r : Option Hit} (h : s.step block a = .miss s')
    (hscanned : Scanned block a s' r) : Scanned block a s r := by
  have hanchor := Search.anchor_of_miss h
  have hpos := (Search.lt_of_miss h).1
  cases r with
  | none =>
    rw [Scanned, hanchor, ← Search.output_of_miss h] at hscanned
    exact hscanned
  | some hit =>
    have hends : hit.Ends block a s' := hscanned
    have houtput := hends.output_eq
    rw [hanchor, ← Search.output_of_miss h] at houtput
    exact { hends with
      pos_le := Nat.le_trans (Nat.le_of_lt hpos) hends.pos_le
      output_eq := houtput }

/-- The step grows as the count of misses does. -/
theorem stride_add_two (a : Acceleration) (misses : Nat) :
    ((a.val <<< skipTrigger) + misses) >>> skipTrigger = a.stride (misses + 2) := by
  rw [Acceleration.stride, if_neg (by omega), Nat.add_sub_cancel, Nat.shiftRight_eq_div_pow,
    Nat.shiftRight_eq_div_pow, Nat.shiftLeft_eq, Nat.mul_comm,
    Nat.mul_add_div (Nat.two_pow_pos _)]

theorem stride_le (a : Acceleration) (misses : Nat) :
    a.stride misses ≤ maxAcceleration + misses := by
  have hmax := a.le_max
  have hshift : (misses - 2) >>> skipTrigger ≤ misses - 2 := by
    rw [Nat.shiftRight_eq_div_pow]
    exact Nat.div_le_self ..
  unfold Acceleration.stride
  unfold maxAcceleration at *
  split <;> omega

/-- **A scan finds the next match, or that there is none.** -/
theorem scan_spec {misses : Nat} (hmax : block.size ≤ maxInput)
    (hlimit : limit + matchMargin = block.size + 1) (hbelow : table.Below pos)
    (hanchor : anchor ≤ pos) (hmisses : misses < pos) (hpos : pos ≤ block.size)
    (hrounds : block.size - pos < rounds) :
    ∃ r, scan block limit rounds table pos (a.stride (misses + 1))
        ((a.val <<< skipTrigger) + misses) = pure r ∧
      Scanned block a ⟨table, anchor, pos, misses + 1⟩ r := by
  induction rounds generalizing table pos misses with
  | zero => omega
  | succ rounds ih =>
    have hstride := stride_le a (misses + 1)
    have hword : pos + a.stride (misses + 1) < UInt32.size := by
      simp only [maxAcceleration, maxInput, UInt32.size] at *
      omega
    rw [scan, narrow_of_lt hword, pure_bind]
    by_cases hend : limit < pos + a.stride (misses + 1)
    · rw [if_pos hend]
      exact ⟨none, rfl, Search.output_of_done (Search.step_of_end (by
        simp only [matchMargin] at *
        omega))⟩
    · have hmore : ¬ block.size < pos + a.stride (misses + 1) + (matchMargin - 1) := by
        simp only [matchMargin] at *
        omega
      have hpositive := a.stride_pos (misses + 1)
      simp only [matchMargin] at hlimit
      rw [if_neg hend, probe_eq hbelow (by omega) (by omega), pure_bind]
      cases hc : Search.candidate? block table pos with
      | some candidate =>
        have hstep := Search.step_of_candidate (s := ⟨table, anchor, pos, misses + 1⟩) hmore hc
        obtain ⟨-, hlt, hdistance, heq⟩ := Search.candidate?_eq_some_iff.1 hc
        exact ⟨_, rfl,
          { pos_le := Nat.le_refl _
            margin_le := by simp only [matchMargin]; omega
            below := hbelow.store (Nat.lt_succ_self _) (by omega) _
            candidate_lt := hlt
            distance_le := hdistance
            word_eq := heq
            output_eq := Search.output_of_hit hstep hanchor }⟩
      | none =>
        have hstep := Search.step_of_no_candidate (s := ⟨table, anchor, pos, misses + 1⟩) hmore hc
        have hnext : (a.val <<< skipTrigger) + misses + 1 < UInt32.size := by
          have hval := a.le_max
          simp only [maxAcceleration, maxInput, UInt32.size, skipTrigger, Nat.shiftLeft_eq] at *
          omega
        have hbelow' : (table.store (word32 block pos) pos).Below (pos + a.stride (misses + 1)) :=
          hbelow.store (by omega) (by omega) _
        obtain ⟨r, hscan, hscanned⟩ := ih hbelow' (by omega)
          (show misses + 1 < pos + a.stride (misses + 1) by omega) (by omega) (by omega)
        refine ⟨r, ?_, scanned_of_miss hstep hscanned⟩
        dsimp only
        rw [narrow_of_lt hnext, pure_bind, stride_add_two]
        exact hscan

end Checked

end BlockStream
