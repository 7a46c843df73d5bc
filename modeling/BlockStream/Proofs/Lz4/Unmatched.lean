import BlockStream.Proofs.Lz4.WorstCase
import Mathlib.Data.List.OfFn

/-!
# Blocks without matches

Where no four bytes stand twice within reach of a match, the search can find nothing, and the
block is encoded as literals only. There are such blocks of every size.
-/

namespace BlockStream.Lz4

variable {block : ByteArray} {anchor : Nat} {m : Match}

/-- No four bytes stand twice in places that a match could connect. -/
def Unmatched (block : ByteArray) : Prop :=
  ∀ i j, i < j → j ≤ i + maxDistance → j + matchMargin ≤ block.size →
    word32 block i ≠ word32 block j

theorem Unmatched.extract (h : Unmatched block) (start stop : Nat) :
    Unmatched (block.extract start stop) := by
  intro i j hlt hmax hsize
  rw [ByteArray.size_extract] at hsize
  unfold matchMargin at hsize
  rw [word32_extract (by omega), word32_extract (by omega)]
  exact h _ _ (by omega) (by omega) (by unfold matchMargin; omega)

/-! ## Nothing is found -/

theorem Match.Sound.word32_eq (h : m.Sound block anchor) :
    word32 block (m.start - m.distance) = word32 block m.start := by
  have hback := h.distance_le_start
  have hmin := h.minMatch_le
  unfold minMatch at hmin
  rw [word32_eq_iff]
  intro k hk
  have hagree := h.agree (m.start + k) (Nat.le_add_right ..) (by unfold Match.stop; omega)
  rw [hagree]
  congr 1
  omega

theorem not_sound_of_unmatched (h : Unmatched block) : ¬ m.Sound block anchor := by
  intro hsound
  have hone := hsound.one_le
  have hback := hsound.distance_le_start
  have hmax := hsound.distance_le
  exact h (m.start - m.distance) m.start (by omega) (by omega) hsound.start_le hsound.word32_eq

theorem findMatches_of_unmatched (h : Unmatched block) (a : Acceleration) :
    (findMatches block a).toList = [] := by
  have hsound := sound_findMatches block a
  cases hfound : (findMatches block a).toList with
  | nil => rfl
  | cons m rest =>
    rw [hfound] at hsound
    exact absurd hsound.1 (not_sound_of_unmatched h)

/-- **A block without matches is encoded as its literals.** -/
theorem encoded_of_unmatched (h : Unmatched block) (level : Int32) :
    encoded block level = ⟨[], block.data.toList, 0⟩ := by
  rw [encoded, findMatches_of_unmatched h]
  rfl

theorem length_toBytes_of_unmatched (h : Unmatched block) (level : Int32) :
    (encoded block level).toBytes.length = worstSize block.size := by
  rw [encoded_of_unmatched h, length_toBytes_literals, length_toList_data]

/-! ## Any number of bytes without matches -/

/-- Every third byte is a mark, and the two bytes between marks count the marks before them in
base 255. So four bytes tell where they stand, up to multiples of `3 * 255 * 255`. -/
def scatteredByte (i : Nat) : UInt8 :=
  if i % 3 = 0 then 255
  else if i % 3 = 1 then (i / 3 % 255).toUInt8
  else (i / 3 / 255 % 255).toUInt8

def scattered (n : Nat) : ByteArray := ⟨Array.ofFn fun i : Fin n => scatteredByte i⟩

@[simp] theorem size_scattered (n : Nat) : (scattered n).size = n := Array.size_ofFn

theorem byteAt_scattered {n i : Nat} (h : i < n) : byteAt (scattered n) i = scatteredByte i := by
  rw [byteAt_of_lt (by rwa [size_scattered])]
  exact Array.getElem_ofFn _

theorem toNat_scatteredByte_low {i : Nat} (h : i % 3 = 1) :
    (scatteredByte i).toNat = i / 3 % 255 := by
  rw [scatteredByte, if_neg (by omega), if_pos h, toNat_toUInt8]
  omega

theorem toNat_scatteredByte_high {i : Nat} (h : i % 3 = 2) :
    (scatteredByte i).toNat = i / 3 / 255 % 255 := by
  rw [scatteredByte, if_neg (by omega), if_neg (by omega), toNat_toUInt8]
  omega

theorem scatteredByte_eq_mark_iff (i : Nat) : scatteredByte i = 255 ↔ i % 3 = 0 := by
  refine ⟨fun h => ?_, fun h => if_pos h⟩
  have hmark : (scatteredByte i).toNat = 255 := congrArg UInt8.toNat h
  by_contra hne
  obtain hlow | hhigh : i % 3 = 1 ∨ i % 3 = 2 := by omega
  · rw [toNat_scatteredByte_low hlow] at hmark
    omega
  · rw [toNat_scatteredByte_high hhigh] at hmark
    omega

/-- **Nothing is to be found in these bytes**, however many there are. -/
theorem unmatched_scattered (n : Nat) : Unmatched (scattered n) := by
  intro i j hlt hmax hsize hword
  rw [size_scattered] at hsize
  unfold matchMargin at hsize
  unfold maxDistance at hmax
  have hbyte (k : Nat) (hk : k < 4) : scatteredByte (i + k) = scatteredByte (j + k) := by
    have := word32_eq_iff.1 hword k hk
    rwa [byteAt_scattered (by omega), byteAt_scattered (by omega)] at this
  have hmark (k : Nat) (hk : k < 4) : (i + k) % 3 = 0 ↔ (j + k) % 3 = 0 := by
    rw [← scatteredByte_eq_mark_iff, ← scatteredByte_eq_mark_iff, hbyte k hk]
  -- Both words have their marks in the same places, and then the digits behind a mark agree.
  have hphase : i % 3 = j % 3 := by
    have h0 := hmark 0 (by decide)
    have h1 := hmark 1 (by decide)
    have h2 := hmark 2 (by decide)
    omega
  obtain ⟨k, hk, hik⟩ : ∃ k < 3, (i + k) % 3 = 1 := ⟨(4 - i % 3) % 3, by omega, by omega⟩
  have hlow := congrArg UInt8.toNat (hbyte k (by omega))
  have hhigh := congrArg UInt8.toNat (hbyte (k + 1) (by omega))
  rw [toNat_scatteredByte_low hik, toNat_scatteredByte_low (by omega)] at hlow
  rw [toNat_scatteredByte_high (by omega), toNat_scatteredByte_high (by omega)] at hhigh
  omega

end BlockStream.Lz4
