/-! # Xorshift generators -/

namespace BlockStream

/-- The state of a generator, oldest word first. -/
structure Xorshift128 where
  x : UInt32
  y : UInt32
  z : UInt32
  w : UInt32
  deriving DecidableEq, Repr

namespace Xorshift128

def initial : Xorshift128 := ⟨123456789, 362436069, 987654321, 1⟩

/-- Fold a seed into the two newest words. The two oldest keep what they held. -/
def reseed (g : Xorshift128) (seed : UInt32) : Xorshift128 :=
  { g with z := seed ^^^ (seed >>> 8) ^^^ (seed <<< 5), w := seed }

def step (g : Xorshift128) : Xorshift128 :=
  let t := g.x ^^^ (g.x <<< 11)
  ⟨g.y, g.z, g.w, g.w ^^^ (g.w >>> 19) ^^^ (t ^^^ (t >>> 8))⟩

/-- Draw the next number: the newest word after a step. -/
def next (g : Xorshift128) : UInt32 × Xorshift128 := (g.step.w, g.step)

/-- The state after `n` draws. -/
def advance : (n : Nat) → Xorshift128 → Xorshift128
  | 0, g => g
  | n + 1, g => advance n g.next.2

/-- The numbers of the next `n` draws. -/
def outputs : (n : Nat) → Xorshift128 → List UInt32
  | 0, _ => []
  | n + 1, g => g.next.1 :: outputs n g.next.2

instance : Inhabited Xorshift128 := ⟨initial⟩

end Xorshift128

end BlockStream
