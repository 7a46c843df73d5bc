import BlockStream.Lz4.Compressor
import BlockStream.Stream.Codec

/-! # LZ4 streams -/

namespace BlockStream

/-- The stream codec over LZ4 blocks. -/
def Codec.lz4 (config : Config := .sequential) : Codec := ⟨BlockStream.lz4, config⟩

instance : Inhabited Codec := ⟨Codec.lz4⟩

def compress (data : ByteArray) (level : Int32) : Except StreamError ByteArray :=
  Codec.lz4.compress data level

def decompress (stream : ByteArray) : Except StreamError ByteArray :=
  Codec.lz4.decompress stream

def recordCount (stream : ByteArray) : Except StreamError Nat :=
  Codec.lz4.recordCount stream

/-- Compress data into a stream of LZ4 blocks, or into nothing; but empty data becomes nothing,
too. -/
def compressOrEmpty (data : ByteArray) (level : Int32) : ByteArray :=
  (compress data level).toOption.getD ByteArray.empty

/-- Decompress a stream of LZ4 blocks, or to nothing. -/
def decompressOrEmpty (stream : ByteArray) : ByteArray :=
  (decompress stream).toOption.getD ByteArray.empty

end BlockStream
