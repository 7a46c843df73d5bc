import BlockStream.Lz4.Block
import BlockStream.Lz4.Decoder
import BlockStream.Proofs.Bytes.Words

/-! # Readers and the format -/

namespace BlockStream.Lz4

variable {block : ByteArray} {pos stop stop' : Nat}

/-! ## Lengths -/

theorem lengthBytes_of_lt {n : Nat} (h : n < 255) : lengthBytes n = [n.toUInt8] := by
  rw [lengthBytes, Nat.div_eq_of_lt h, Nat.mod_eq_of_lt h]
  rfl

theorem lengthBytes_add (n : Nat) : lengthBytes (n + 255) = 255 :: lengthBytes n := by
  rw [lengthBytes, Nat.add_div_right n (by decide), Nat.add_mod_right, List.replicate_succ]
  rfl

@[simp] theorem length_lengthBytes (n : Nat) : (lengthBytes n).length = n / 255 + 1 := by
  simp [lengthBytes]

theorem toUInt8_ne_of_lt {n : Nat} (h : n < 255) : n.toUInt8 ≠ 255 := by
  intro hn
  have h255 := toNat_toUInt8 n
  rw [hn, Nat.mod_eq_of_lt (by omega)] at h255
  exact Nat.ne_of_lt h h255.symm

/-- The first byte of a run says whether it goes on. -/
theorem segment_lengthBytes_iff {n : Nat} :
    Segment block pos stop (lengthBytes n) ↔ ∃ h : pos < block.size,
      if block[pos] = 255 then ∃ m, n = m + 255 ∧ Segment block (pos + 1) stop (lengthBytes m)
      else n = block[pos].toNat ∧ stop = pos + 1 := by
  by_cases hn : n < 255
  · rw [lengthBytes_of_lt hn, segment_cons_iff]
    apply exists_congr
    intro h
    rw [segment_nil_iff]
    constructor
    · rintro ⟨hb, hstop⟩
      rw [if_neg (hb ▸ toUInt8_ne_of_lt hn)]
      exact ⟨by rw [hb, toNat_toUInt8, Nat.mod_eq_of_lt (by omega)], hstop⟩
    · intro hb
      split at hb
      · obtain ⟨m, rfl, -⟩ := hb
        omega
      · exact ⟨by rw [hb.1]; exact (UInt8.ofNat_toNat).symm, hb.2⟩
  · obtain ⟨m, rfl⟩ : ∃ m, n = m + 255 := ⟨n - 255, by omega⟩
    rw [lengthBytes_add, segment_cons_iff]
    apply exists_congr
    intro h
    constructor
    · rintro ⟨hb, hrest⟩
      rw [if_pos hb]
      exact ⟨m, rfl, hrest⟩
    · intro hb
      split at hb
      · next full =>
        obtain ⟨m', hm, hrest⟩ := hb
        obtain rfl : m = m' := by omega
        exact ⟨full, hrest⟩
      · have := block[pos].toNat_lt
        have hlt : block[pos].toNat ≠ 255 := fun h255 => ‹¬_› (UInt8.toNat_inj.1 h255)
        omega

theorem readRun_eq_some_iff {total : Nat} {r : Reading} :
    readRun block pos total = some r ↔
      ∃ n, r.value = total + n ∧ Segment block pos r.stop (lengthBytes n) := by
  fun_induction readRun block pos total with
  | case1 pos total hpos byte full ih =>
    rw [ih]
    constructor
    · rintro ⟨n, hvalue, hseg⟩
      refine ⟨n + 255, by omega, segment_lengthBytes_iff.2 ⟨hpos, ?_⟩⟩
      rw [if_pos full]
      exact ⟨n, rfl, hseg⟩
    · rintro ⟨n, hvalue, hseg⟩
      obtain ⟨_, hbyte⟩ := segment_lengthBytes_iff.1 hseg
      rw [if_pos full] at hbyte
      obtain ⟨m, rfl, hrest⟩ := hbyte
      exact ⟨m, by omega, hrest⟩
  | case2 pos total hpos byte small =>
    constructor
    · intro h
      obtain rfl := Option.some.inj h
      refine ⟨byte.toNat, rfl, segment_lengthBytes_iff.2 ⟨hpos, ?_⟩⟩
      rw [if_neg small]
      exact ⟨rfl, rfl⟩
    · rintro ⟨n, hvalue, hseg⟩
      obtain ⟨_, hbyte⟩ := segment_lengthBytes_iff.1 hseg
      rw [if_neg small] at hbyte
      obtain ⟨value, stop⟩ := r
      simp only at hvalue hbyte
      rw [hvalue, hbyte.1, hbyte.2]
  | case3 pos total hpos =>
    constructor
    · intro h
      cases h
    · rintro ⟨n, -, hseg⟩
      obtain ⟨h, -⟩ := segment_lengthBytes_iff.1 hseg
      exact absurd h hpos

theorem readLength_eq_some_iff {field : Nat} (hfield : field ≤ fieldMax) {r : Reading} :
    readLength block field pos = some r ↔
      field = min r.value fieldMax ∧ Segment block pos r.stop (lengthTail r.value) := by
  unfold readLength lengthTail
  by_cases hfull : field = fieldMax
  · rw [if_pos hfull, readRun_eq_some_iff]
    constructor
    · rintro ⟨n, hvalue, hseg⟩
      rw [if_neg (by omega), hvalue, Nat.add_sub_cancel_left]
      exact ⟨by omega, hseg⟩
    · rintro ⟨hmin, hseg⟩
      rw [if_neg (by omega)] at hseg
      exact ⟨r.value - fieldMax, by omega, hseg⟩
  · rw [if_neg hfull]
    constructor
    · intro h
      obtain rfl := Option.some.inj h
      rw [if_pos (by simp only; omega), segment_nil_iff]
      exact ⟨by simp only; omega, rfl⟩
    · rintro ⟨hmin, hseg⟩
      rw [if_pos (by omega), segment_nil_iff] at hseg
      obtain ⟨value, stop⟩ := r
      simp only at hmin hseg
      rw [hseg, hmin, Nat.min_eq_left (by omega)]

/-! ## Tokens and literals -/

theorem literalField_le (t : UInt8) : literalField t ≤ fieldMax := by
  have := t.toNat_lt
  unfold literalField fieldMax
  omega

theorem matchField_le (t : UInt8) : matchField t ≤ fieldMax := by
  unfold matchField fieldMax
  omega

theorem toNat_token (literals excess : Nat) :
    (token literals excess).toNat = 16 * min literals fieldMax + min excess fieldMax := by
  rw [token, toNat_toUInt8]
  exact Nat.mod_eq_of_lt (by unfold fieldMax; omega)

@[simp] theorem literalField_token (literals excess : Nat) :
    literalField (token literals excess) = min literals fieldMax := by
  rw [literalField, toNat_token]
  unfold fieldMax
  omega

@[simp] theorem matchField_token (literals excess : Nat) :
    matchField (token literals excess) = min excess fieldMax := by
  rw [matchField, toNat_token]
  unfold fieldMax
  omega

theorem eq_token {t : UInt8} {literals excess : Nat} (hl : literalField t = min literals fieldMax)
    (hm : matchField t = min excess fieldMax) : t = token literals excess := by
  apply UInt8.toNat_inj.1
  rw [toNat_token, ← hl, ← hm, literalField, matchField]
  omega

theorem token_min (literals excess : Nat) :
    token literals (min excess fieldMax) = token literals excess := by
  rw [token, token, Nat.min_assoc, Nat.min_self]

theorem or_token (n : Nat) : ∀ k ≤ fieldMax, token n 0 ||| k.toUInt8 = token n k := by
  have hall : ∀ i ≤ fieldMax, ∀ k ≤ fieldMax,
      (16 * i).toUInt8 ||| k.toUInt8 = (16 * i + min k fieldMax).toUInt8 := by decide
  exact hall _ (Nat.min_le_right ..)

theorem literalBytes_min (literals : List UInt8) (excess : Nat) :
    literalBytes literals (min excess fieldMax) = literalBytes literals excess := by
  rw [literalBytes, literalBytes, token_min]

theorem segment_literalBytes_iff {literals : List UInt8} {field : Nat} :
    Segment block pos stop (literalBytes literals field) ↔
      ∃ h : pos < block.size, block[pos] = token literals.length field ∧
        ∃ mid, Segment block (pos + 1) mid (lengthTail literals.length) ∧
          Segment block mid stop literals := by
  rw [literalBytes, List.cons_append, segment_cons_iff]
  simp only [segment_append_iff]

theorem readLiterals_eq_some_iff {l : Literals} :
    readLiterals block pos = some l ↔ l.field ≤ fieldMax ∧ ∃ literals : List UInt8,
      literals.length = l.length ∧ Segment block pos l.stop (literalBytes literals l.field) := by
  constructor
  · intro h
    unfold readLiterals at h
    split at h
    · next hpos =>
      simp only at h
      split at h
      · cases h
      · next r hr =>
        rw [readLength_eq_some_iff (literalField_le _)] at hr
        split at h
        · next hroom =>
          obtain rfl := Option.some.inj h
          have hlits := segment_take hroom
          have hlen : ((bytesFrom block r.stop).take r.value).length = r.value := by
            have := hlits.1
            omega
          refine ⟨matchField_le _, _, hlen, segment_literalBytes_iff.2 ⟨hpos, ?_, r.stop, ?_⟩⟩
          · rw [hlen]
            exact eq_token hr.1 (Nat.min_eq_left (matchField_le _)).symm
          · rw [hlen]
            exact ⟨hr.2, hlits⟩
        · cases h
    · cases h
  · rintro ⟨hfield, literals, hlen, hseg⟩
    obtain ⟨hpos, htoken, mid, htail, hlits⟩ := segment_literalBytes_iff.1 hseg
    have hread : readLength block (literalField block[pos]) (pos + 1) =
        some ⟨literals.length, mid⟩ := by
      rw [readLength_eq_some_iff (literalField_le _), htoken, literalField_token]
      exact ⟨rfl, htail⟩
    have hmid := htail.stop_le hpos
    have hstop := hlits.1
    have hroom := hlits.stop_le hmid
    obtain ⟨field, start, length⟩ := l
    simp only [Literals.stop] at hfield hlen hstop hroom
    unfold readLiterals
    simp only [dif_pos hpos, hread]
    rw [if_pos (by omega), htoken, matchField_token, Nat.min_eq_left hfield, hlen,
      show mid = start by omega]

theorem segment_literals {literals : List UInt8} {field : Nat}
    (h : Segment block pos stop (literalBytes literals field)) :
    pos < stop ∧ Segment block (stop - literals.length) stop literals := by
  obtain ⟨_, _, mid, htail, hlits⟩ := segment_literalBytes_iff.1 h
  have := htail.1
  have := hlits.1
  rw [show stop - literals.length = mid by omega]
  exact ⟨by omega, hlits⟩

/-! ## References -/

theorem word16?_eq_some_iff_segment {distance : Nat} :
    word16? block pos = some distance ↔
      distance ≤ maxDistance ∧ Segment block pos (pos + 2) (littleEndian 2 distance) := by
  rw [word16?_eq_some_iff]
  constructor
  · rintro ⟨hsize, hvalue⟩
    have hlt : distance < 256 ^ 2 := hvalue ▸ numberAt_lt block 2 pos
    exact ⟨Nat.le_of_lt_succ hlt, (segment_littleEndian_iff hlt).2 ⟨Or.inr hsize, hvalue⟩⟩
  · rintro ⟨hmax, hseg⟩
    have := (segment_littleEndian_iff (Nat.lt_succ_of_le hmax)).1 hseg
    omega

theorem segment_referenceBytes_iff {distance excess : Nat} :
    Segment block pos stop (referenceBytes distance excess) ↔
      Segment block pos (pos + 2) (littleEndian 2 distance) ∧
        Segment block (pos + 2) stop (lengthTail excess) := by
  rw [referenceBytes, segment_append_iff]
  constructor
  · rintro ⟨mid, hdist, htail⟩
    obtain rfl : mid = pos + 2 := by rw [hdist.1, length_littleEndian]
    exact ⟨hdist, htail⟩
  · rintro ⟨hdist, htail⟩
    exact ⟨_, hdist, htail⟩

theorem readReference_eq_some_iff {field decoded : Nat} (hfield : field ≤ fieldMax)
    {m : Reference} :
    readReference block field pos decoded = some m ↔
      (minMatch ≤ m.length ∧ 1 ≤ m.distance ∧ m.distance ≤ maxDistance ∧ m.distance ≤ decoded) ∧
        field = min (m.length - minMatch) fieldMax ∧
        Segment block pos m.stop (referenceBytes m.distance (m.length - minMatch)) := by
  unfold readReference
  rw [segment_referenceBytes_iff]
  constructor
  · intro h
    split at h
    · cases h
    · next distance hd =>
      obtain ⟨hmax, hseg⟩ := word16?_eq_some_iff_segment.1 hd
      split at h
      · cases h
      · next hrange =>
        split at h
        · cases h
        · next r hr =>
          obtain ⟨hmin, htail⟩ := (readLength_eq_some_iff hfield).1 hr
          obtain rfl := Option.some.inj h
          simp only [Nat.add_sub_cancel]
          exact ⟨⟨Nat.le_add_left .., by omega, hmax, by omega⟩, hmin, hseg, htail⟩
  · rintro ⟨⟨hlen, hpos, hmax, hdec⟩, hmin, hseg, htail⟩
    have hd := word16?_eq_some_iff_segment.2 ⟨hmax, hseg⟩
    have hr : readLength block field (pos + 2) = some ⟨m.length - minMatch, m.stop⟩ :=
      (readLength_eq_some_iff hfield).2 ⟨hmin, htail⟩
    simp only [hd, hr]
    rw [if_neg (by omega), Nat.sub_add_cancel hlen]

/-! ## Only one reading -/

theorem literalBytes_unique {xs ys : List UInt8} {f g : Nat} (hf : f ≤ fieldMax)
    (hg : g ≤ fieldMax) (hx : Segment block pos stop (literalBytes xs f))
    (hy : Segment block pos stop' (literalBytes ys g)) : xs = ys ∧ f = g ∧ stop = stop' := by
  have hsx := segment_literals hx
  have hsy := segment_literals hy
  have hlx := hsx.2.1
  have hly := hsy.2.1
  have h1 : readLiterals block pos = some ⟨f, stop - xs.length, xs.length⟩ :=
    readLiterals_eq_some_iff.2 ⟨hf, xs, rfl, by rwa [Literals.stop, ← hlx]⟩
  have h2 : readLiterals block pos = some ⟨g, stop' - ys.length, ys.length⟩ :=
    readLiterals_eq_some_iff.2 ⟨hg, ys, rfl, by rwa [Literals.stop, ← hly]⟩
  rw [h1, Option.some_inj, Literals.mk.injEq] at h2
  obtain ⟨hfield, hstart, hlen⟩ := h2
  obtain rfl : stop = stop' := by omega
  rw [hlen] at hsx
  exact ⟨hsx.2.unique hsy.2, hfield, rfl⟩

theorem referenceBytes_unique {d d' n n' : Nat} (hd : d ≤ maxDistance) (hd' : d' ≤ maxDistance)
    (hfield : min n fieldMax = min n' fieldMax)
    (h : Segment block pos stop (referenceBytes d n))
    (h' : Segment block pos stop' (referenceBytes d' n')) : d = d' ∧ n = n' ∧ stop = stop' := by
  obtain ⟨hdist, htail⟩ := segment_referenceBytes_iff.1 h
  obtain ⟨hdist', htail'⟩ := segment_referenceBytes_iff.1 h'
  have h1 := word16?_eq_some_iff_segment.2 ⟨hd, hdist⟩
  have h2 := word16?_eq_some_iff_segment.2 ⟨hd', hdist'⟩
  have hle : min n fieldMax ≤ fieldMax := Nat.min_le_right ..
  have h3 : readLength block (min n fieldMax) (pos + 2) = some ⟨n, stop⟩ :=
    (readLength_eq_some_iff hle).2 ⟨rfl, htail⟩
  have h4 : readLength block (min n fieldMax) (pos + 2) = some ⟨n', stop'⟩ :=
    (readLength_eq_some_iff hle).2 ⟨hfield, htail'⟩
  rw [h1, Option.some_inj] at h2
  rw [h3, Option.some_inj, Reading.mk.injEq] at h4
  exact ⟨h2, h4.1, h4.2⟩

end BlockStream.Lz4
