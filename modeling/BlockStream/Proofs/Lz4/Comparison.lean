import BlockStream.Proofs.Lz4.EncoderSafety
import Mathlib.Data.Nat.Find
import Mathlib.Order.Bounds.Defs

/-!
# How far two places agree

Two places of a block are compared eight bytes at a time, as words. Where two words differ, the
lowest bit in which they do lies in the first byte that differs, since low bytes come first.
-/

namespace BlockStream.Lz4

variable {block : ByteArray} {limit pos candidate : Nat}

/-! ## The lowest bit of a difference -/

section LowestBit

variable {word : UInt64} {bit : Nat}

/-- Bit number `bit` of a word is set, and none below it. -/
structure LowestBit (word : UInt64) (bit : Nat) : Prop where
  isSet : word.toNat.testBit bit = true
  below : ∀ i < bit, word.toNat.testBit i = false

theorem exists_lowestBit (h : word ≠ 0) : ∃ bit < 64, LowestBit word bit := by
  have hne : word.toNat ≠ 0 := fun h0 => h (UInt64.toNat_inj.1 h0)
  have hset : ∃ i, word.toNat.testBit i = true := Nat.exists_testBit_of_ne_zero hne
  have hspec := Nat.find_spec hset
  refine ⟨Nat.find hset, ?_, hspec, fun i hi => ?_⟩
  · by_contra hbit
    have hlow : word.toNat < 2 ^ Nat.find hset :=
      Nat.lt_of_lt_of_le word.toNat_lt (Nat.pow_le_pow_right (by decide) (Nat.not_lt.1 hbit))
    rw [Nat.testBit_lt_two_pow hlow] at hspec
    cases hspec
  · exact Bool.eq_false_iff.2 (Nat.find_min hset hi)

theorem LowestBit.mod_eq_zero_iff (h : LowestBit word bit) : word % 256 = 0 ↔ 8 ≤ bit := by
  have hmod : word % 256 = 0 ↔ word.toNat % 2 ^ 8 = 0 := by
    rw [← UInt64.toNat_inj, UInt64.toNat_mod]
    rfl
  rw [hmod]
  constructor
  · intro hzero
    by_contra hbit
    have htest := Nat.testBit_mod_two_pow word.toNat 8 bit
    rw [hzero, Nat.zero_testBit, h.isSet, decide_eq_true (Nat.lt_of_not_le hbit)] at htest
    cases htest
  · intro hbit
    apply Nat.eq_of_testBit_eq
    intro i
    rw [Nat.testBit_mod_two_pow, Nat.zero_testBit]
    by_cases hi : i < 8
    · rw [h.below i (by omega), Bool.and_false]
    · rw [decide_eq_false hi, Bool.false_and]

theorem LowestBit.div (h : LowestBit word bit) (hbit : 8 ≤ bit) :
    LowestBit (word / 256) (bit - 8) := by
  have hdiv (i : Nat) : (word / 256).toNat.testBit i = word.toNat.testBit (i + 8) := by
    rw [UInt64.toNat_div]
    show (word.toNat / 2 ^ 8).testBit i = word.toNat.testBit (i + 8)
    exact Nat.testBit_div_two_pow word.toNat i
  refine ⟨?_, fun i hi => ?_⟩
  · rw [hdiv, Nat.sub_add_cancel hbit]
    exact h.isSet
  · rw [hdiv]
    exact h.below _ (by omega)

/-- **The lowest bit that is set is in the first byte that is not zero.** -/
theorem leadingZeroBytes_of_lowestBit {bytes : Nat} (h : LowestBit word bit)
    (hlt : bit < 8 * bytes) : leadingZeroBytes bytes word = bit / 8 := by
  induction bytes generalizing word bit with
  | zero => omega
  | succ bytes ih =>
    rw [leadingZeroBytes]
    by_cases hbit : 8 ≤ bit
    · rw [if_pos (h.mod_eq_zero_iff.2 hbit), ih (h.div hbit) (by omega)]
      omega
    · rw [if_neg (mt h.mod_eq_zero_iff.1 hbit), Nat.div_eq_of_lt (by omega)]

end LowestBit

/-! ## The number of equal bytes -/

theorem commonEnd_of_le (h : limit ≤ pos) : commonEnd block limit pos candidate = pos := by
  rw [commonEnd_eq_commonEndBytewise, commonEndBytewise, if_neg (Nat.not_lt.2 h)]

theorem commonLength_add_le (h : pos ≤ limit) :
    pos + commonLength block limit pos candidate ≤ limit := by
  have hend := commonEnd_le block candidate h
  rw [commonLength]
  omega

theorem agree_of_lt_commonLength (hle : candidate ≤ pos) {i : Nat}
    (hi : i < commonLength block limit pos candidate) :
    byteAt block (pos + i) = byteAt block (candidate + i) := by
  have hend : pos + i < commonEnd block limit pos candidate := by
    rw [commonLength] at hi
    omega
  rw [byteAt_of_lt_commonEnd hle (Nat.le_add_right pos i) hend]
  congr 1
  omega

theorem le_commonLength {k : Nat} (hlimit : pos + k ≤ limit)
    (hagree : ∀ i < k, byteAt block (pos + i) = byteAt block (candidate + i)) :
    k ≤ commonLength block limit pos candidate := by
  have hend := le_commonEnd block limit (pos + k) (candidate + k)
  rw [commonLength, commonEnd_add hlimit hagree]
  omega

/-- The numbers of bytes that agree from `pos` and `candidate` on, and end before the limit. -/
def agreeing (block : ByteArray) (limit pos candidate : Nat) : Set Nat :=
  {k | (k = 0 ∨ pos + k ≤ limit) ∧
    ∀ i < k, byteAt block (pos + i) = byteAt block (candidate + i)}

theorem isGreatest_agreeing (hle : candidate ≤ pos) :
    IsGreatest (agreeing block limit pos candidate) (commonLength block limit pos candidate) := by
  refine ⟨⟨?_, fun i hi => agree_of_lt_commonLength hle hi⟩, ?_⟩
  · by_cases hpos : pos ≤ limit
    · exact Or.inr (commonLength_add_le hpos)
    · left
      rw [commonLength, commonEnd_of_le (Nat.le_of_not_le hpos), Nat.sub_self]
  · rintro k ⟨hzero | hk, hagree⟩
    · rw [hzero]
      exact Nat.zero_le _
    · exact le_commonLength hk hagree

/-! ## Words -/

/-- Half of the words are enough for a slice, so a sum that starts inside of it is a word. -/
theorem has_add_eight {bits n : Nat} (hbits : 4 ≤ bits) (hn : n < 2 ^ (bits - 1)) :
    (Words.below (2 ^ bits)).Has (n + 8) := by
  obtain ⟨k, rfl⟩ := Nat.exists_eq_add_of_le' hbits
  have hpos : 0 < 2 ^ k := Nat.two_pow_pos k
  have hhalf : 2 ^ (k + 4 - 1) = 8 * 2 ^ k := by
    rw [show k + 4 - 1 = k + 3 from rfl, Nat.pow_add, Nat.mul_comm]
  have hall : 2 ^ (k + 4) = 16 * 2 ^ k := by rw [Nat.pow_add, Nat.mul_comm]
  show n + 8 < 2 ^ (k + 4)
  omega

theorem count_of_not_has {words : Words} (h : ¬ words.Has (pos + 8)) :
    Checked.count words block limit pos candidate = throw .overflow := by
  rw [Checked.count, Checked.countFrom, Checked.add_of_not_has h]
  rfl

end BlockStream.Lz4
