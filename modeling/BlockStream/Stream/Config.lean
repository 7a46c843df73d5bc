/-! # Configuration of the stream codec -/

namespace BlockStream

/-- The number of bytes in every block of a stream but the last one. -/
def blockSize : Nat := 1024 * 1024

def defaultLevel : Int32 := 1

def maxWorkers : Nat := 200

structure Config where
  /-- How many workers share the blocks of a stream. -/
  workers : Nat
  one_le : 1 ≤ workers
  le_max : workers ≤ maxWorkers
  deriving DecidableEq

namespace Config

/-- The number of workers, moved into the range allowed. -/
def ofWorkers (n : Nat) : Config where
  workers := max 1 (min n maxWorkers)
  one_le := Nat.le_max_left ..
  le_max := Nat.max_le.2 ⟨by decide, Nat.min_le_right ..⟩

/-- The setting for a machine with this many cores: one core, and one more of every eight, are
left to other work. -/
def ofCores (cores : Nat) : Config := ofWorkers (cores - (1 + cores / 8))

def sequential : Config := ofWorkers 1

instance : Inhabited Config := ⟨sequential⟩

end Config

end BlockStream
