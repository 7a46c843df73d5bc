import BlockStream.Random.Xorshift128

/-!
# Random number services

A service hands out random numbers to the threads of a program. Each call is one step, which
changes one generator; so a run is a list of calls in the order in which they took effect.
-/

namespace BlockStream

/-- An interval with no numbers in it. -/
structure RangeError where
  min : UInt64
  max : UInt64
  deriving DecidableEq, Repr

def RangeError.message (e : RangeError) : String :=
  s!"invalid range: min {e.min} is greater than max {e.max}"

/-- A kind of generator for uniform numbers. A service knows nothing of it but how to draw. -/
structure Uniform where
  State : Type
  next32 : State → UInt32 × State
  next64 : State → UInt64 × State
  /-- Draw a number of the interval from `min` to `max`, which is not empty. -/
  between : (min max : UInt64) → State → UInt64 × State

/-- The generators of a program. -/
structure Service (U : Uniform) where
  fast : Xorshift128
  uniform32 : U.State
  uniform64 : U.State

inductive Call where
  | seedFast (seed : UInt32)
  | nextFast
  | nextUniform32
  | nextUniform64
  /-- A number from `min` to `max`. -/
  | range (min max : UInt64)
  /-- A number from zero to `max`. -/
  | rangeTo (max : UInt64)
  deriving DecidableEq, Repr

inductive Reply where
  | seeded
  | word (value : UInt32)
  | wide (value : UInt64)
  | refused (e : RangeError)
  deriving DecidableEq, Repr

namespace Service

variable {U : Uniform}

/-- A new service. Its uniform generators may be in any state. -/
def new (uniform32 uniform64 : U.State) : Service U := ⟨.initial, uniform32, uniform64⟩

def seedFast (s : Service U) (seed : UInt32) : Service U := { s with fast := s.fast.reseed seed }

def nextFast (s : Service U) : UInt32 × Service U :=
  let (value, fast) := s.fast.next
  (value, { s with fast })

def nextUniform32 (s : Service U) : UInt32 × Service U :=
  let (value, uniform32) := U.next32 s.uniform32
  (value, { s with uniform32 })

def nextUniform64 (s : Service U) : UInt64 × Service U :=
  let (value, uniform64) := U.next64 s.uniform64
  (value, { s with uniform64 })

/-- Draw a number from `min` to `max`, with the generator of 64 bits. -/
def range (s : Service U) (min max : UInt64) : Except RangeError UInt64 × Service U :=
  if max < min then (.error ⟨min, max⟩, s)
  else
    let (value, uniform64) := U.between min max s.uniform64
    (.ok value, { s with uniform64 })

def rangeTo (s : Service U) (max : UInt64) : UInt64 × Service U :=
  let (value, uniform64) := U.between 0 max s.uniform64
  (value, { s with uniform64 })

def perform (s : Service U) : Call → Reply × Service U
  | .seedFast seed => (.seeded, s.seedFast seed)
  | .nextFast => s.nextFast.map .word id
  | .nextUniform32 => s.nextUniform32.map .word id
  | .nextUniform64 => s.nextUniform64.map .wide id
  | .range min max =>
    match s.range min max with
    | (.ok value, s) => (.wide value, s)
    | (.error e, s) => (.refused e, s)
  | .rangeTo max => (s.rangeTo max).map .wide id

/-- Carry out the calls of threads, which are known by numbers, one after the other. Each reply goes
to the thread that called. -/
def run (s : Service U) : List (Nat × Call) → List (Nat × Reply) × Service U
  | [] => ([], s)
  | (thread, call) :: rest =>
    let (reply, s) := s.perform call
    let (replies, s) := s.run rest
    ((thread, reply) :: replies, s)

end Service

end BlockStream
