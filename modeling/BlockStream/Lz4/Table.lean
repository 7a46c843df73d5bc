import BlockStream.Lz4.Format

/-! # The table of positions -/

namespace BlockStream.Lz4

def slotCount : Nat := 4096

/-- A table of positions; a slot that was never stored to holds position zero. -/
structure Table where
  slots : Vector UInt32 slotCount

namespace Table

def empty : Table := ⟨Vector.replicate slotCount 0⟩

/-- The slot of a word: the upper twelve bits of its product with a multiplier whose bits are
well spread. -/
@[inline] def slot (word : UInt32) : Fin slotCount :=
  ⟨((word * 2654435761) >>> 20).toNat, by
    have := (word * 2654435761).toNat_lt
    simp only [UInt32.toNat_shiftRight, slotCount]
    have h : (20 : UInt32).toNat % 32 = 20 := rfl
    rw [h, Nat.shiftRight_eq_div_pow]
    omega⟩

/-- The position last stored for words in the slot of `word`. -/
@[inline] def lookup (t : Table) (word : UInt32) : Nat := (t.slots.get (slot word)).toNat

@[inline] def store (t : Table) (word : UInt32) (pos : Nat) : Table :=
  ⟨t.slots.set (slot word) pos.toUInt32 (slot word).isLt⟩

end Table

end BlockStream.Lz4
