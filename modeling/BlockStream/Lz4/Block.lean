import BlockStream.Bytes.LittleEndian
import BlockStream.Lz4.Length

/-!
# Blocks as lists of sequences

What a block is, apart from any way to read or write it: the grammar of its bytes, and the bytes
that it stands for. Lengths are numbers without a limit.
-/

namespace BlockStream.Lz4

/-- Literals, and then a match of `length` bytes that also stand `distance` bytes before. -/
structure Sequence where
  literals : List UInt8
  distance : Nat
  length : Nat
  deriving DecidableEq, Repr

/-- A block: sequences with a match, and a last one that has only literals. The field of its token
for a match is `spare` and means nothing. -/
structure Block where
  sequences : List Sequence
  last : List UInt8
  spare : Nat
  deriving DecidableEq, Repr

/-! ## Bytes -/

/-- What a length has beyond its field in the token. -/
def lengthTail (n : Nat) : List UInt8 := if n < fieldMax then [] else lengthBytes (n - fieldMax)

/-- A token and the literals it announces; the match field of the token is `field`. -/
def literalBytes (literals : List UInt8) (field : Nat) : List UInt8 :=
  token literals.length field :: lengthTail literals.length ++ literals

/-- The distance and the length of a match, less what its token has of them. -/
def referenceBytes (distance excess : Nat) : List UInt8 :=
  littleEndian 2 distance ++ lengthTail excess

def Sequence.toBytes (s : Sequence) : List UInt8 :=
  literalBytes s.literals (s.length - minMatch) ++ referenceBytes s.distance (s.length - minMatch)

def Block.toBytes (b : Block) : List UInt8 :=
  b.sequences.flatMap Sequence.toBytes ++ literalBytes b.last b.spare

/-! ## Meaning -/

/-- Append `length` bytes, each equal to the one `distance` bytes before it. -/
def copyBack (out : List UInt8) (distance : Nat) : (length : Nat) → List UInt8
  | 0 => out
  | length + 1 => copyBack (out ++ [out.getD (out.length - distance) 0]) distance length

def Sequence.decoded (out : List UInt8) (s : Sequence) : List UInt8 :=
  copyBack (out ++ s.literals) s.distance s.length

/-- The bytes that a block stands for. -/
def Block.decoded (b : Block) : List UInt8 := b.sequences.foldl Sequence.decoded [] ++ b.last

/-! ## Validity -/

/-- The number of bytes that a sequence stands for. -/
def Sequence.size (s : Sequence) : Nat := s.literals.length + s.length

/-- Every sequence satisfies `p` at the position in the output where its literals begin; the first
of them begins at `pos`. -/
def EverySequence (p : Nat → Sequence → Prop) : (pos : Nat) → List Sequence → Prop
  | _, [] => True
  | pos, s :: rest => p pos s ∧ EverySequence p (pos + s.size) rest

/-- A sequence can be written, and its match refers to decoded bytes. -/
def Sequence.Valid (pos : Nat) (s : Sequence) : Prop :=
  minMatch ≤ s.length ∧ 1 ≤ s.distance ∧ s.distance ≤ maxDistance ∧
    s.distance ≤ pos + s.literals.length

/-- A block can be written and has a meaning. -/
def Block.Valid (b : Block) : Prop :=
  EverySequence Sequence.Valid 0 b.sequences ∧ b.spare ≤ fieldMax

/-- The number of bytes that a list of sequences stands for. -/
def totalSize : List Sequence → Nat
  | [] => 0
  | s :: rest => s.size + totalSize rest

def Block.size (b : Block) : Nat := totalSize b.sequences + b.last.length

/-- The match of a sequence keeps away from the end of a block that stands for `size` bytes. -/
def Sequence.Restricted (size pos : Nat) (s : Sequence) : Prop :=
  pos + s.literals.length + matchMargin ≤ size ∧ pos + s.size + lastLiterals ≤ size

/-- A valid block whose matches keep away from its end, and whose spare field is zero. -/
def Block.Restricted (b : Block) : Prop :=
  b.Valid ∧ EverySequence (Sequence.Restricted b.size) 0 b.sequences ∧ b.spare = 0

end BlockStream.Lz4
