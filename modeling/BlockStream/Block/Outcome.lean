import BlockStream.Bytes.Buffer

/-! # Outcomes of block operations -/

namespace BlockStream

/-- Why one block cannot be compressed or decompressed. -/
inductive BlockError where
  /-- The destination cannot hold the result. -/
  | outputTooSmall
  /-- The block is larger than the compressor accepts. -/
  | inputTooLarge
  /-- The compressed block is malformed or cut short. -/
  | malformedInput
  /-- The operation succeeded with no bytes at all. -/
  | emptyOutput
  deriving DecidableEq, Repr

instance decEqExcept {ε α : Type} [DecidableEq ε] [DecidableEq α] : DecidableEq (Except ε α)
  | .ok a, .ok a' => decidable_of_iff' (a = a') (by rw [Except.ok.injEq])
  | .error e, .error e' => decidable_of_iff' (e = e') (by rw [Except.error.injEq])
  | .ok _, .error _ => isFalse nofun
  | .error _, .ok _ => isFalse nofun

def BlockError.message : BlockError → String
  | .outputTooSmall => "output buffer too small"
  | .inputTooLarge => "input too large for a single block"
  | .malformedInput => "malformed compressed block"
  | .emptyOutput => "block produced zero bytes"

/-- What a block operation on a destination of `capacity` bytes comes to. -/
structure Outcome (capacity : Nat) where
  /-- The number of bytes written at the front of the destination, or the error. -/
  result : Except BlockError Nat
  /-- The destination afterwards. -/
  buffer : Buffer capacity

def Outcome.bytes {capacity : Nat} (o : Outcome capacity) : Except BlockError ByteArray :=
  o.result.map o.buffer.first

/-- The bytes of a block operation that must produce some. By the contract of a compressor, the
number of bytes never exceeds the destination; `Buffer.first` would cut it silently. -/
def Outcome.nonemptyBytes {capacity : Nat} (o : Outcome capacity) : Except BlockError ByteArray :=
  match o.result with
  | .ok 0 => .error .emptyOutput
  | .ok n => .ok (o.buffer.first n)
  | .error e => .error e

/-- The same result with the same bytes. -/
def Outcome.Same {m n : Nat} (o : Outcome m) (o' : Outcome n) : Prop :=
  o.result = o'.result ∧ o.bytes = o'.bytes

end BlockStream
