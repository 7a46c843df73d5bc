import BlockStream.Lz4.Search
import BlockStream.Proofs.Bytes.Words

/-!
# What the search finds

The table only proposes candidates: a match is taken for its bytes. So nothing about the table is
needed to know that every match repeats bytes that stand at its distance.
-/

namespace BlockStream.Lz4

variable {block : ByteArray} {limit anchor pos candidate : Nat}

/-! ## Forwards -/

theorem mod_eq_zero_iff {i j width : Nat} {word : UInt64}
    (h : word.toNat = numberAt block (width + 1) i ^^^ numberAt block (width + 1) j) :
    word % 256 = 0 ↔ byteAt block i = byteAt block j := by
  have hlow : (word % 256).toNat = (byteAt block i ^^^ byteAt block j).toNat := by
    rw [UInt64.toNat_mod, h]
    show (numberAt block (width + 1) i ^^^ numberAt block (width + 1) j) % 2 ^ 8 = _
    rw [Nat.xor_mod_two_pow, UInt8.toNat_xor, ← numberAt_succ_mod block width i,
      ← numberAt_succ_mod block width j]
  rw [← UInt64.toNat_inj, hlow, ← UInt8.xor_eq_zero_iff, ← UInt8.toNat_inj]
  rfl

theorem toNat_div {i j width : Nat} {word : UInt64}
    (h : word.toNat = numberAt block (width + 1) i ^^^ numberAt block (width + 1) j) :
    (word / 256).toNat = numberAt block width (i + 1) ^^^ numberAt block width (j + 1) := by
  rw [UInt64.toNat_div, h]
  show (numberAt block (width + 1) i ^^^ numberAt block (width + 1) j) / 2 ^ 8 = _
  rw [Nat.xor_div_two_pow, ← numberAt_succ_div, ← numberAt_succ_div]

theorem commonEndBytewise_of_ne (h : byteAt block pos ≠ byteAt block candidate) :
    commonEndBytewise block limit pos candidate = pos := by
  rw [commonEndBytewise, if_neg h, ite_self]

theorem commonEndBytewise_of_eq (hlt : pos < limit)
    (h : byteAt block pos = byteAt block candidate) :
    commonEndBytewise block limit pos candidate =
      commonEndBytewise block limit (pos + 1) (candidate + 1) := by
  rw [commonEndBytewise, if_pos hlt, if_pos h]

/-- The difference of two words tells how many of their bytes agree. -/
theorem commonEndBytewise_eq_of_xor {width : Nat} {word : UInt64} (hlimit : pos + width ≤ limit)
    (hword : word.toNat = numberAt block width pos ^^^ numberAt block width candidate) :
    commonEndBytewise block limit pos candidate =
      if word = 0 then commonEndBytewise block limit (pos + width) (candidate + width)
      else pos + leadingZeroBytes width word := by
  induction width generalizing pos candidate word with
  | zero =>
    have h0 : word = 0 := UInt64.toNat_inj.1 (hword.trans (Nat.xor_self 0))
    rw [if_pos h0]
    rfl
  | succ width ih =>
    have hdiv : word.toNat = 256 * (word / 256).toNat + (word % 256).toNat := by
      rw [UInt64.toNat_div, UInt64.toNat_mod]
      exact (Nat.div_add_mod ..).symm
    -- The lowest byte of the word compares the first bytes, and the others the bytes after them.
    by_cases hbyte : byteAt block pos = byteAt block candidate
    · have hmod : word % 256 = 0 := (mod_eq_zero_iff hword).2 hbyte
      have hzero : word / 256 = 0 ↔ word = 0 := by
        rw [← UInt64.toNat_inj, ← UInt64.toNat_inj, hdiv, hmod, UInt64.toNat_zero]
        omega
      rw [commonEndBytewise_of_eq (by omega) hbyte, ih (by omega) (toNat_div hword),
        leadingZeroBytes, if_pos hmod]
      simp only [hzero, Nat.add_assoc, Nat.add_comm 1]
    · have hmod : word % 256 ≠ 0 := fun h => hbyte ((mod_eq_zero_iff hword).1 h)
      have hne : word ≠ 0 := fun h => hmod (by rw [h]; rfl)
      rw [commonEndBytewise_of_ne hbyte, if_neg hne, leadingZeroBytes, if_neg hmod]
      rfl

/-- **Eight bytes at a time is as good as one at a time.** -/
theorem commonEnd_eq_commonEndBytewise (block : ByteArray) (limit pos candidate : Nat) :
    commonEnd block limit pos candidate = commonEndBytewise block limit pos candidate := by
  have hxor (i j : Nat) : (word64 block i ^^^ word64 block j).toNat =
      numberAt block 8 i ^^^ numberAt block 8 j := by
    rw [UInt64.toNat_xor, toNat_word64, toNat_word64]
  fun_induction commonEnd block limit pos candidate with
  | case1 pos candidate hle difference hzero ih =>
    rw [ih, commonEndBytewise_eq_of_xor hle (hxor ..), if_pos hzero]
  | case2 pos candidate hle difference hne =>
    rw [commonEndBytewise_eq_of_xor hle (hxor ..), if_neg hne]
  | case3 => rfl

theorem commonEnd_le (block : ByteArray) (candidate : Nat) (h : pos ≤ limit) :
    commonEnd block limit pos candidate ≤ limit := by
  rw [commonEnd_eq_commonEndBytewise]
  fun_induction commonEndBytewise block limit pos candidate with
  | case1 pos candidate hlt hbyte ih => exact ih (by omega)
  | case2 => exact h
  | case3 => exact h

theorem byteAt_of_lt_commonEnd (hle : candidate ≤ pos) {p : Nat} (hp : pos ≤ p)
    (hend : p < commonEnd block limit pos candidate) :
    byteAt block p = byteAt block (p - (pos - candidate)) := by
  rw [commonEnd_eq_commonEndBytewise] at hend
  fun_induction commonEndBytewise block limit pos candidate with
  | case1 pos candidate hlt hbyte ih =>
    obtain rfl | hne := Nat.eq_or_lt_of_le hp
    · rwa [Nat.sub_sub_self hle]
    · have := ih (by omega) (by omega) hend
      rwa [Nat.add_sub_add_right] at this
  | case2 => omega
  | case3 => omega

/-! ## Backwards -/

theorem le_commonStart (h : anchor ≤ pos) : anchor ≤ commonStart block anchor pos candidate := by
  fun_induction commonStart block anchor pos candidate with
  | case1 pos candidate hagree ih => exact ih hagree.1
  | case2 => exact h
  | case3 => exact h

theorem le_commonStart_add (block : ByteArray) (anchor pos candidate : Nat) :
    pos ≤ commonStart block anchor pos candidate + candidate := by
  fun_induction commonStart block anchor pos candidate with
  | case1 => omega
  | case2 => omega
  | case3 => omega

theorem byteAt_of_commonStart_le (hle : candidate ≤ pos) {p : Nat} (hp : p < pos)
    (hstart : commonStart block anchor pos candidate ≤ p) :
    byteAt block p = byteAt block (p - (pos - candidate)) := by
  fun_induction commonStart block anchor pos candidate with
  | case1 pos candidate hagree ih =>
    rw [Nat.succ_sub_succ]
    obtain rfl | hne := Nat.eq_or_lt_of_le (Nat.le_of_lt_succ hp)
    · rw [Nat.sub_sub_self (by omega)]
      exact hagree.2
    · exact ih (by omega) hne hstart
  | case2 => omega
  | case3 => omega

/-! ## Sound matches -/

/-- A match in what follows `anchor`: it repeats the bytes at its distance, can be written, and
keeps away from the end of the block. -/
structure Match.Sound (block : ByteArray) (anchor : Nat) (m : Match) : Prop where
  anchor_le : anchor ≤ m.start
  minMatch_le : minMatch ≤ m.length
  one_le : 1 ≤ m.distance
  distance_le : m.distance ≤ maxDistance
  distance_le_start : m.distance ≤ m.start
  start_le : m.start + matchMargin ≤ block.size
  stop_le : m.stop + lastLiterals ≤ block.size
  agree : ∀ p, m.start ≤ p → p < m.stop → byteAt block p = byteAt block (p - m.distance)

/-- Sound matches one after the other, without overlap. -/
def SoundFrom (block : ByteArray) : (anchor : Nat) → List Match → Prop
  | _, [] => True
  | anchor, m :: rest => m.Sound block anchor ∧ SoundFrom block m.stop rest

/-- Every match satisfies `p` with the end of the match before it; the first of them comes after
`anchor`. -/
def EveryMatch (p : Nat → Match → Prop) : (anchor : Nat) → List Match → Prop
  | _, [] => True
  | anchor, m :: rest => p anchor m ∧ EveryMatch p m.stop rest

theorem soundFrom_iff {ms : List Match} :
    SoundFrom block anchor ms ↔ EveryMatch (Match.Sound block) anchor ms := by
  induction ms generalizing anchor with
  | nil => rfl
  | cons m ms ih => exact and_congr_right fun _ => ih

namespace Search

theorem stop_extend (block : ByteArray) (anchor pos candidate : Nat) :
    (extend block anchor pos candidate).stop =
      commonEnd block (block.size - lastLiterals) (pos + minMatch) (candidate + minMatch) := by
  have := commonStart_le block anchor pos candidate
  have := le_commonEnd block (block.size - lastLiterals) (pos + minMatch) (candidate + minMatch)
  simp only [extend, Match.stop]
  omega

theorem le_limit_of_margin (h : pos + matchMargin ≤ block.size) :
    pos + minMatch ≤ block.size - lastLiterals := by
  simp only [minMatch, lastLiterals, matchMargin] at *
  omega

/-- **Four equal bytes extend to a sound match.** -/
theorem sound_extend (hanchor : anchor ≤ pos) (hlt : candidate < pos)
    (hmax : pos - candidate ≤ maxDistance) (hword : word32 block candidate = word32 block pos)
    (hsize : pos + matchMargin ≤ block.size) :
    (extend block anchor pos candidate).Sound block anchor := by
  have hstart := commonStart_le block anchor pos candidate
  have hback := le_commonStart_add block anchor pos candidate
  have hend :=
    le_commonEnd block (block.size - lastLiterals) (pos + minMatch) (candidate + minMatch)
  have hstop := stop_extend block anchor pos candidate
  have hlimit := le_limit_of_margin hsize
  unfold matchMargin at hsize
  refine
    { anchor_le := le_commonStart hanchor
      minMatch_le := by simp only [extend]; omega
      one_le := by simp only [extend]; omega
      distance_le := hmax
      distance_le_start := by simp only [extend]; omega
      start_le := by simp only [extend, matchMargin]; omega
      stop_le := ?_
      agree := fun p hp hpstop => ?_ }
  · have hle := commonEnd_le block (candidate + minMatch) hlimit
    rw [hstop]
    unfold lastLiterals at *
    omega
  · rw [hstop] at hpstop
    simp only [extend] at hp ⊢
    -- Compared backwards, as the word that was looked up, or forwards.
    by_cases hbefore : p < pos
    · exact byteAt_of_commonStart_le (Nat.le_of_lt hlt) hbefore hp
    · by_cases hword4 : p < pos + minMatch
      · have := word32_eq_iff.1 hword (p - pos) (by unfold minMatch at hword4; omega)
        rw [show p - (pos - candidate) = candidate + (p - pos) by omega, this]
        congr 1
        omega
      · have := byteAt_of_lt_commonEnd (by omega) (Nat.le_of_not_lt hword4) hpstop
        rwa [Nat.add_sub_add_right] at this

variable {a : Acceleration} {s s' : Search} {m : Match}

theorem anchor_of_miss (h : s.step block a = .miss s') : s'.anchor = s.anchor := by
  simp only [step] at h
  split at h
  · cases h
  · split at h
    · cases h
    · obtain rfl := Step.miss.inj h
      rfl

theorem exists_of_hit (h : s.step block a = .hit m s') :
    ∃ candidate, m = extend block s.anchor s.pos candidate ∧ candidate < s.pos ∧
      s.pos - candidate ≤ maxDistance ∧ word32 block candidate = word32 block s.pos ∧
      s.pos + matchMargin ≤ block.size ∧ s'.anchor = m.stop ∧ s'.pos = m.stop := by
  have hstride := a.stride_pos s.misses
  simp only [step, matchMargin] at h
  split at h
  · cases h
  · next hsize =>
    split at h
    · next husable =>
      obtain ⟨rfl, rfl⟩ := Step.hit.inj h
      obtain ⟨hlt, hmax, hword⟩ := husable
      exact ⟨_, rfl, hlt, hmax, hword, by unfold matchMargin; omega, rfl, rfl⟩
    · cases h

theorem sound_of_hit (h : s.step block a = .hit m s') (hanchor : s.anchor ≤ s.pos) :
    m.Sound block s.anchor ∧ s'.anchor = m.stop ∧ s'.pos = m.stop := by
  obtain ⟨candidate, rfl, hlt, hmax, hword, hsize, hnext⟩ := exists_of_hit h
  exact ⟨sound_extend hanchor hlt hmax hword hsize, hnext⟩

/-- **What holds of every hit holds of all matches that a search adds.** -/
theorem everyMatch_run {p : Nat → Match → Prop}
    (hp : ∀ {s s' : Search} {m : Match}, s.step block a = .hit m s' → s.anchor ≤ s.pos →
      p s.anchor m) (hanchor : s.anchor ≤ s.pos) (found : Array Match) :
    ∃ ms, (s.run block a found).toList = found.toList ++ ms ∧ EveryMatch p s.anchor ms := by
  fun_induction run block a s found with
  | case1 s found => exact ⟨[], (List.append_nil _).symm, trivial⟩
  | case2 s found s' hmiss _ ih =>
    have := lt_of_miss hmiss
    have hsame := anchor_of_miss hmiss
    obtain ⟨ms, hrun, hms⟩ := ih (by omega)
    exact ⟨ms, hrun, hsame ▸ hms⟩
  | case3 s found m s' hhit _ ih =>
    obtain ⟨-, hanchor', hpos'⟩ := sound_of_hit hhit hanchor
    obtain ⟨ms, hrun, hms⟩ := ih (by omega)
    refine ⟨m :: ms, ?_, hp hhit hanchor, hanchor' ▸ hms⟩
    rw [hrun, Array.toList_push, List.append_assoc]
    rfl

end Search

theorem everyMatch_findMatches {a : Acceleration} {p : Nat → Match → Prop}
    (hp : ∀ {s s' : Search} {m : Match}, s.step block a = .hit m s' → s.anchor ≤ s.pos →
      p s.anchor m) : EveryMatch p 0 (findMatches block a).toList := by
  have hanchor : Search.start.anchor ≤ Search.start.pos := Nat.zero_le _
  obtain ⟨ms, hrun, hms⟩ := Search.everyMatch_run hp hanchor #[]
  rwa [findMatches, hrun]

/-- **A search finds sound matches only.** -/
theorem sound_findMatches (block : ByteArray) (a : Acceleration) :
    SoundFrom block 0 (findMatches block a).toList :=
  soundFrom_iff.2 (everyMatch_findMatches fun h hanchor => (Search.sound_of_hit h hanchor).1)

end BlockStream.Lz4
