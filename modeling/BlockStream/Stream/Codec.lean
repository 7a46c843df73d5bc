import BlockStream.Block.Compressor
import BlockStream.Record.Reader
import BlockStream.Stream.Config
import BlockStream.Stream.Error
import BlockStream.Stream.Workers

/-!
# The stream codec

Data is cut into blocks of `blockSize` bytes, and each block is compressed on its own into the
payload of one record. An operation has a whole result or an error, never a part of a result.
-/

namespace BlockStream

structure Codec where
  compressor : BlockCompressor
  config : Config := .sequential

namespace Codec

/-! ## Sizes -/

def boundFor (c : Codec) (length : Nat) : Except StreamError Nat :=
  match c.compressor.bound length with
  | some n => .ok n
  | none => .error (.bound length)

/-- The longest payload that a record of this codec may have. -/
def maxRecordLength (c : Codec) : Except StreamError Nat :=
  (c.boundFor blockSize).map (min · (UInt32.size - 1))

/-- The room to set aside for a stream: the worst case of the data as a whole, and a header for
each block. -/
def reserve (bound length : Nat) : Nat := bound + headerSize * blockCount blockSize length

/-! ## Compression -/

variable {capacity : Nat}

/-- Compress block number `index` in a scratch buffer, which is handed back. -/
def pack (c : Codec) (level : Int32) (scratch : Buffer capacity) (index : Nat)
    (block : ByteArray) : Except StreamError ByteArray × Buffer capacity :=
  let o := c.compressor.compress block level scratch
  (o.nonemptyBytes.mapError (.compress index), o.buffer)

/-- Compress the blocks from number `index` on, and append their records to `out`. -/
def packFrom (c : Codec) (level : Int32) :
    (index : Nat) → List ByteArray → Buffer capacity → (out : ByteArray) →
      Except StreamError ByteArray
  | _, [], _, out => .ok out
  | index, block :: rest, scratch, out =>
    match c.pack level scratch index block with
    | (.error e, _) => .error e
    | (.ok payload, scratch) => packFrom c level (index + 1) rest scratch (pushRecord out payload)

def compress (c : Codec) (data : ByteArray) (level : Int32) : Except StreamError ByteArray := do
  let bound ← c.boundFor data.size
  if data.size = 0 then return ByteArray.empty
  let scratch ← c.boundFor (min data.size blockSize)
  c.packFrom level 0 (blocks blockSize data) (Buffer.zeros scratch)
    (ByteArray.emptyWithCapacity (reserve bound data.size))

/-- Append the records of payloads, up to the first that could not be had. -/
def appendRecords : List (Except StreamError ByteArray) → (out : ByteArray) →
    Except StreamError ByteArray
  | [], out => .ok out
  | .error e :: _, _ => .error e
  | .ok payload :: rest, out => appendRecords rest (pushRecord out payload)

/-- Compress data into a stream, with its blocks dealt out to workers. -/
def compressAcross (c : Codec) (A : Assignment) (data : ByteArray) (level : Int32) :
    Except StreamError ByteArray := do
  let bound ← c.boundFor data.size
  if data.size ≤ blockSize then return ← c.compress data level
  let scratch ← c.boundFor blockSize
  let payloads := A.run (c.pack level) (fun _ => Buffer.zeros scratch)
    (blocks blockSize data).toArray
  appendRecords payloads (ByteArray.emptyWithCapacity (reserve bound data.size))

def compressParallel (c : Codec) (data : ByteArray) (level : Int32) :
    Except StreamError ByteArray :=
  if c.config.workers ≤ 1 then c.compress data level
  else c.compressAcross (.contiguous c.config.workers) data level

/-! ## Decompression -/

/-- Decompress a record in a scratch buffer, which is handed back. -/
def unpack (c : Codec) (scratch : Buffer capacity) (r : Record) :
    Except StreamError ByteArray × Buffer capacity :=
  let o := c.compressor.decompress r.payload scratch
  (o.nonemptyBytes.mapError (.decompress r.index r.offset), o.buffer)

/-- Decompress the records ahead of a reader, and append their bytes to `out`. -/
def unpackFrom (c : Codec) (r : Reader) (scratch : Buffer capacity) (out : ByteArray) :
    Except StreamError ByteArray :=
  match h : r.next with
  | (none, _) => .ok out
  | (some (.error e), _) => .error (.format e)
  | (some (.ok record), r') =>
    have := Reader.remaining_lt_of_next h
    match c.unpack scratch record with
    | (.error e, _) => .error e
    | (.ok bytes, scratch) => unpackFrom c r' scratch (out ++ bytes)
termination_by r.remaining

def records (c : Codec) (stream : ByteArray) : Except StreamError Reader :=
  c.maxRecordLength.map (Reader.ofStream stream)

def decompress (c : Codec) (stream : ByteArray) : Except StreamError ByteArray := do
  let reader ← c.records stream
  if stream.size = 0 then return ByteArray.empty
  c.unpackFrom reader (Buffer.zeros blockSize) ByteArray.empty

/-- Append the bytes of records, up to the first that could not be had. -/
def appendBytes : List (Except StreamError ByteArray) → (out : ByteArray) →
    Except StreamError ByteArray
  | [], out => .ok out
  | .error e :: _, _ => .error e
  | .ok bytes :: rest, out => appendBytes rest (out ++ bytes)

/-- Decompress a stream, with its records dealt out to workers. A violation of the format counts
only if all records before it can be decompressed. -/
def decompressAcross (c : Codec) (A : Assignment) (stream : ByteArray) :
    Except StreamError ByteArray := do
  let reader ← c.records stream
  let walk := reader.walk
  if walk.records.size ≤ 1 then return ← c.decompress stream
  let parts := A.run (fun scratch _ record => c.unpack scratch record)
    (fun _ => Buffer.zeros blockSize) walk.records
  let out ← appendBytes parts ByteArray.empty
  match walk.violation with
  | some e => .error (.format e)
  | none => .ok out

def decompressParallel (c : Codec) (stream : ByteArray) : Except StreamError ByteArray :=
  if c.config.workers ≤ 1 then c.decompress stream
  else c.decompressAcross (.contiguous c.config.workers) stream

/-! ## Counting -/

def recordCount (c : Codec) (stream : ByteArray) : Except StreamError Nat := do
  let reader ← c.records stream
  let walk := reader.walk
  match walk.violation with
  | some e => .error (.format e)
  | none => .ok walk.records.size

end Codec

end BlockStream
