import BlockStream.Lz4.Match
import BlockStream.Lz4.Table

/-!
# Finding matches

At each position that it tries, the search looks up where the same four bytes may have occurred
before. A hit is extended in both directions, and the search goes on right after it; after a miss
it steps ahead, farther the longer there was no hit.
-/

namespace BlockStream.Lz4

/-! ## Acceleration -/

def minAcceleration : Nat := 1

def maxAcceleration : Nat := 65537

/-- How many positions the search steps ahead after its first misses. -/
structure Acceleration where
  val : Nat
  min_le : minAcceleration ≤ val
  le_max : val ≤ maxAcceleration

/-- The acceleration of a level: the level itself, moved into the range of accelerations. -/
def Acceleration.ofLevel (level : Int32) : Acceleration where
  val := max minAcceleration (min level.toInt.toNat maxAcceleration)
  min_le := Nat.le_max_left ..
  le_max := Nat.max_le.2 ⟨by decide, Nat.min_le_right ..⟩

/-- The number of misses after which the step grows by one is two to this power. -/
def skipTrigger : Nat := 6

/-- How far to step after a miss that follows `misses` others. -/
@[inline] def Acceleration.stride (a : Acceleration) (misses : Nat) : Nat :=
  if misses < 2 then 1 else a.val + (misses - 2) >>> skipTrigger

theorem Acceleration.stride_pos (a : Acceleration) (misses : Nat) : 0 < a.stride misses := by
  unfold stride
  split
  · exact Nat.one_pos
  · exact Nat.add_pos_left a.min_le _

/-! ## The search -/

structure Search where
  table : Table
  /-- The end of the last match; bytes before it are settled. -/
  anchor : Nat
  /-- The position to try next. -/
  pos : Nat
  /-- The number of misses since the last match. -/
  misses : Nat

namespace Search

inductive Step where
  /-- Too little of the block is left for another match. -/
  | done
  /-- The four bytes at this position do not occur where the table says. -/
  | miss (next : Search)
  /-- There is a match. -/
  | hit (found : Match) (next : Search)

/-- A search starts at the second byte: a match needs a byte to refer back to. -/
def start : Search := ⟨Table.empty, 0, 1, 1⟩

/-- The state after a match that ends at `stop`: two bytes before its end are remembered. -/
@[inline] def after (block : ByteArray) (table : Table) (stop : Nat) : Search :=
  ⟨table.store (word32 block (stop - 2)) (stop - 2), stop, stop, 0⟩

/-- The match at `pos` with the same four bytes at `candidate`, extended in both directions. -/
@[inline] def extend (block : ByteArray) (anchor pos candidate : Nat) : Match :=
  let start := commonStart block anchor pos candidate
  let stop := commonEnd block (block.size - lastLiterals) (pos + minMatch) (candidate + minMatch)
  ⟨start, stop - start, pos - candidate⟩

@[inline] def step (block : ByteArray) (a : Acceleration) (s : Search) : Step :=
  match s with
  | ⟨table, anchor, pos, misses⟩ =>
    let stride := a.stride misses
    if block.size < pos + stride + (matchMargin - 1) then .done
    else
      let word := word32 block pos
      let candidate := table.lookup word
      let table := table.store word pos
      if candidate < pos ∧ pos - candidate ≤ maxDistance ∧ word32 block candidate = word then
        let found := extend block anchor pos candidate
        .hit found (after block table found.stop)
      else .miss ⟨table, anchor, pos + stride, misses + 1⟩

theorem lt_stop_extend (block : ByteArray) (anchor pos candidate : Nat) :
    pos < (extend block anchor pos candidate).stop := by
  have h := le_commonEnd block (block.size - lastLiterals) (pos + minMatch) (candidate + minMatch)
  have h' := commonStart_le block anchor pos candidate
  simp only [extend, Match.stop, minMatch] at h ⊢
  omega

theorem lt_of_miss {block : ByteArray} {a : Acceleration} {s s' : Search}
    (h : s.step block a = .miss s') : s.pos < s'.pos ∧ s.pos < block.size := by
  have hs := a.stride_pos s.misses
  simp only [step, matchMargin] at h
  split at h
  · simp at h
  · split at h
    · simp at h
    · obtain rfl := Step.miss.inj h
      simp only
      omega

theorem lt_of_hit {block : ByteArray} {a : Acceleration} {s s' : Search} {m : Match}
    (h : s.step block a = .hit m s') : s.pos < s'.pos ∧ s.pos < block.size := by
  have hs := a.stride_pos s.misses
  simp only [step, matchMargin] at h
  split at h
  · simp at h
  · next hle =>
    split at h
    · obtain ⟨rfl, rfl⟩ := Step.hit.inj h
      exact ⟨lt_stop_extend .., by omega⟩
    · simp at h

/-- Search the rest of the block and add its matches to those `found` before. -/
def run (block : ByteArray) (a : Acceleration) (s : Search) (found : Array Match) :
    Array Match :=
  match h : s.step block a with
  | .done => found
  | .miss s' =>
    have := lt_of_miss h
    run block a s' found
  | .hit m s' =>
    have := lt_of_hit h
    run block a s' (found.push m)
termination_by block.size - s.pos

end Search

def findMatches (block : ByteArray) (a : Acceleration) : Array Match :=
  Search.start.run block a #[]

end BlockStream.Lz4
