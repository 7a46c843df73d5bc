import BlockStream.Bytes.Buffer
import BlockStream.Bytes.LittleEndian

/-!
# Checked programs

Reads and writes of this library are total, and its numbers have no limit. The operations here are
the same, but they fault outside of an array, below zero, and where a sum is not a word.
-/

namespace BlockStream

/-- Why a checked program has no result. -/
inductive Fault where
  /-- A position or a range is not inside its array. -/
  | outOfRange
  /-- A position would be negative. -/
  | underflow
  /-- A sum is too large for a word. -/
  | overflow
  /-- A loop has used up its allowance of rounds. -/
  | unfinished
  deriving DecidableEq, Repr

/-! ## Words -/

/-- The numbers that a machine has words for. -/
inductive Words where
  | all
  | below (limit : Nat)
  deriving DecidableEq, Repr

namespace Words

variable {words : Words} {m n : Nat}

def Has : Words → Nat → Prop
  | all, _ => True
  | below limit, n => n < limit

instance : Decidable (words.Has n) :=
  match words with
  | all => isTrue trivial
  | below limit => inferInstanceAs (Decidable (n < limit))

theorem has_all (n : Nat) : all.Has n := trivial

theorem Has.mono (h : words.Has n) (hle : m ≤ n) : words.Has m := by
  cases words with
  | all => trivial
  | below limit => exact Nat.lt_of_le_of_lt hle h

end Words

namespace Checked

variable {capacity m n : Nat} {words : Words}

theorem exists_of_bind {α β : Type} {x : Except Fault α} {f : α → Except Fault β} {b : β}
    (h : x >>= f = .ok b) : ∃ a, x = .ok a ∧ f a = .ok b := by
  cases x with
  | error fault => cases h
  | ok a => exact ⟨a, rfl, h⟩

/-! ## Numbers -/

def sub (m n : Nat) : Except Fault Nat := if n ≤ m then pure (m - n) else throw .underflow

/-- A sum, which must be a word. -/
def add (words : Words) (m n : Nat) : Except Fault Nat :=
  if words.Has (m + n) then pure (m + n) else throw .overflow

/-- A sum, if it is a word. -/
def sum? (words : Words) (m n : Nat) : Option Nat :=
  if words.Has (m + n) then some (m + n) else none

theorem sub_of_le (h : n ≤ m) : sub m n = pure (m - n) := if_pos h

theorem add_of_has (h : words.Has (m + n)) : add words m n = pure (m + n) := if_pos h

theorem add_of_not_has (h : ¬ words.Has (m + n)) : add words m n = throw .overflow := if_neg h

theorem sum?_of_has (h : words.Has (m + n)) : sum? words m n = some (m + n) := if_pos h

theorem sum?_of_not_has (h : ¬ words.Has (m + n)) : sum? words m n = none := if_neg h

/-! ## Reads -/

def byte (bytes : ByteArray) (i : Nat) : Except Fault UInt8 :=
  if h : i < bytes.size then pure bytes[i] else throw .outOfRange

def word (bytes : ByteArray) : Except Fault UInt32 := do
  let b0 ← byte bytes 0
  let b1 ← byte bytes 1
  let b2 ← byte bytes 2
  let b3 ← byte bytes 3
  return b0.toUInt32 + 256 * (b1.toUInt32 + 256 * (b2.toUInt32 + 256 * b3.toUInt32))

def slice (bytes : ByteArray) (start stop : Nat) : Except Fault ByteArray :=
  if start ≤ stop ∧ stop ≤ bytes.size then pure (bytes.extract start stop) else throw .outOfRange

theorem byte_of_lt {bytes : ByteArray} {i : Nat} (h : i < bytes.size) :
    byte bytes i = pure (byteAt bytes i) := by
  rw [byte, dif_pos h, byteAt_of_lt h]

theorem word_of_le {bytes : ByteArray} (h : 4 ≤ bytes.size) :
    word bytes = pure (word32 bytes 0) := by
  have h0 := byte_of_lt (show 0 < bytes.size by omega)
  have h1 := byte_of_lt (show 1 < bytes.size by omega)
  have h2 := byte_of_lt (show 2 < bytes.size by omega)
  have h3 := byte_of_lt (show 3 < bytes.size by omega)
  simp only [word, h0, h1, h2, h3, pure_bind]
  rfl

theorem slice_of_le {bytes : ByteArray} {start stop : Nat} (h : start ≤ stop)
    (hstop : stop ≤ bytes.size) : slice bytes start stop = pure (bytes.extract start stop) :=
  if_pos ⟨h, hstop⟩

/-! ## Writes -/

def set (b : Buffer capacity) (i : Nat) (value : UInt8) : Except Fault (Buffer capacity) :=
  if i < capacity then pure (b.set i value) else throw .outOfRange

def blit (b : Buffer capacity) (target : Nat) (source : ByteArray) (start length : Nat) :
    Except Fault (Buffer capacity) :=
  if target + length ≤ capacity ∧ start + length ≤ source.size then
    pure (b.blit target source start length)
  else throw .outOfRange

def copyBytes (b : Buffer capacity) (source target : Nat) :
    (length : Nat) → Except Fault (Buffer capacity)
  | 0 => pure b
  | length + 1 => do
    let value ← byte b.bytes source
    let b ← set b target value
    copyBytes b (source + 1) (target + 1) length

theorem set_of_lt {b : Buffer capacity} {i : Nat} {value : UInt8} (h : i < capacity) :
    set b i value = pure (b.set i value) := if_pos h

theorem blit_of_le {b : Buffer capacity} {target start length : Nat} {source : ByteArray}
    (htarget : target + length ≤ capacity) (hstart : start + length ≤ source.size) :
    blit b target source start length = pure (b.blit target source start length) :=
  if_pos ⟨htarget, hstart⟩

/-- **A copy faults nowhere** if both its ranges lie inside the buffer. -/
theorem copyBytes_of_le {b : Buffer capacity} {source target length : Nat}
    (hsource : source + length ≤ capacity) (htarget : target + length ≤ capacity) :
    copyBytes b source target length = pure (b.copyBytes source target length) := by
  induction length generalizing b source target with
  | zero => rfl
  | succ length ih =>
    have hread := byte_of_lt (show source < b.bytes.size by rw [b.size_eq]; omega)
    have hwrite (value : UInt8) : set b target value = pure (b.set target value) :=
      set_of_lt (by omega)
    rw [copyBytes, hread, pure_bind, hwrite, pure_bind, ih (by omega) (by omega)]
    rfl

end Checked

end BlockStream
