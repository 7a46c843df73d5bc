import BlockStream.Bytes.LittleEndian
import BlockStream.Proofs.Bytes.Segment
import Mathlib.Algebra.Group.Nat.Defs

/-! # Words and their bytes -/

namespace BlockStream

variable {source : ByteArray} {pos stop : Nat}

theorem toNat_toUInt8 (n : Nat) : n.toUInt8.toNat = n % 256 := UInt8.toNat_ofNat'

/-- The number whose `width` little-endian bytes stand at `pos`, with zeros past the end. -/
def numberAt (source : ByteArray) : (width pos : Nat) → Nat
  | 0, _ => 0
  | width + 1, pos => (byteAt source pos).toNat + 256 * numberAt source width (pos + 1)

theorem numberAt_succ_mod (source : ByteArray) (width pos : Nat) :
    numberAt source (width + 1) pos % 256 = (byteAt source pos).toNat := by
  have := (byteAt source pos).toNat_lt
  rw [numberAt]
  omega

theorem numberAt_succ_div (source : ByteArray) (width pos : Nat) :
    numberAt source (width + 1) pos / 256 = numberAt source width (pos + 1) := by
  have := (byteAt source pos).toNat_lt
  rw [numberAt]
  omega

theorem numberAt_lt (source : ByteArray) (width pos : Nat) :
    numberAt source width pos < 256 ^ width := by
  induction width generalizing pos with
  | zero => exact Nat.one_pos
  | succ width ih =>
    have := (byteAt source pos).toNat_lt
    have := ih (pos + 1)
    rw [numberAt, Nat.pow_succ]
    omega

/-- **A number is determined by its bytes.** -/
theorem numberAt_eq_iff {width i j : Nat} :
    numberAt source width i = numberAt source width j ↔
      ∀ k < width, byteAt source (i + k) = byteAt source (j + k) := by
  induction width generalizing i j with
  | zero => simp [numberAt]
  | succ width ih =>
    have hi := (byteAt source i).toNat_lt
    have hj := (byteAt source j).toNat_lt
    rw [numberAt, numberAt]
    constructor
    · intro h k hk
      cases k with
      | zero =>
        have h0 : (byteAt source i).toNat = (byteAt source j).toNat := by omega
        exact UInt8.toNat_inj.1 h0
      | succ k =>
        have htail : numberAt source width (i + 1) = numberAt source width (j + 1) := by omega
        have := ih.1 htail k (by omega)
        rwa [Nat.add_assoc, Nat.add_assoc, Nat.add_comm 1 k] at this
    · intro h
      have htail : numberAt source width (i + 1) = numberAt source width (j + 1) := by
        rw [ih]
        intro k hk
        have := h (k + 1) (by omega)
        rwa [Nat.add_comm k 1, ← Nat.add_assoc, ← Nat.add_assoc] at this
      have h0 : byteAt source i = byteAt source j := h 0 (by omega)
      rw [h0, htail]

/-! ## Reads -/

theorem toNat_word32 (source : ByteArray) (i : Nat) :
    (word32 source i).toNat = numberAt source 4 i := by
  have h0 := (byteAt source i).toNat_lt
  have h1 := (byteAt source (i + 1)).toNat_lt
  have h2 := (byteAt source (i + 2)).toNat_lt
  have h3 := (byteAt source (i + 3)).toNat_lt
  simp only [word32, numberAt, UInt32.toNat_add, UInt32.toNat_mul, UInt8.toNat_toUInt32,
    UInt32.reduceToNat, Nat.add_assoc, Nat.reduceAdd]
  omega

theorem word32_eq_iff {i j : Nat} :
    word32 source i = word32 source j ↔
      ∀ k < 4, byteAt source (i + k) = byteAt source (j + k) := by
  rw [← UInt32.toNat_inj, toNat_word32, toNat_word32, numberAt_eq_iff]

theorem toNat_word64 (source : ByteArray) (i : Nat) :
    (word64 source i).toNat = numberAt source 8 i := by
  have hlow := numberAt_lt source 4 i
  have hhigh := numberAt_lt source 4 (i + 4)
  have hsplit : numberAt source 8 i =
      numberAt source 4 i + 4294967296 * numberAt source 4 (i + 4) := by
    simp only [numberAt, Nat.add_assoc, Nat.reduceAdd]
    omega
  simp only [word64, UInt64.toNat_add, UInt64.toNat_mul, UInt32.toNat_toUInt64, toNat_word32,
    UInt64.reduceToNat]
  omega

theorem word32_extract {i j k : Nat} (h : i + k + 4 ≤ j) :
    word32 (source.extract i j) k = word32 source (i + k) := by
  simp only [word32]
  rw [byteAt_extract (by omega), byteAt_extract (by omega), byteAt_extract (by omega),
    byteAt_extract (by omega)]
  rfl

theorem word16?_eq_some_iff {n : Nat} :
    word16? source pos = some n ↔ pos + 2 ≤ source.size ∧ n = numberAt source 2 pos := by
  unfold word16?
  by_cases h : pos + 1 < source.size
  · rw [dif_pos h, Option.some_inj]
    simp only [numberAt, byteAt_of_lt h, byteAt_of_lt (Nat.lt_of_succ_lt h)]
    omega
  · rw [dif_neg h]
    simp only [reduceCtorEq, false_iff]
    omega

/-! ## Words as segments -/

theorem segment_littleEndian_iff {width n : Nat} (hn : n < 256 ^ width) :
    Segment source pos (pos + width) (littleEndian width n) ↔
      (width = 0 ∨ pos + width ≤ source.size) ∧ n = numberAt source width pos := by
  induction width generalizing pos n with
  | zero =>
    rw [littleEndian, segment_nil_iff, numberAt]
    simp only [Nat.pow_zero] at hn
    omega
  | succ width ih =>
    rw [littleEndian, segment_cons_iff, show pos + (width + 1) = pos + 1 + width by omega,
      ih (Nat.div_lt_of_lt_mul (by rwa [Nat.pow_succ, Nat.mul_comm] at hn)), numberAt]
    constructor
    · rintro ⟨hpos, hbyte, hsize, hrest⟩
      have hb : source[pos].toNat = n % 256 := by rw [hbyte, toNat_toUInt8]
      rw [byteAt_of_lt hpos, hb, ← hrest]
      omega
    · rintro ⟨hsize, hvalue⟩
      have hpos : pos < source.size := by omega
      have hb := (byteAt source pos).toNat_lt
      refine ⟨hpos, ?_, by omega, by omega⟩
      apply UInt8.toNat_inj.1
      rw [toNat_toUInt8, ← byteAt_of_lt hpos]
      omega

end BlockStream
