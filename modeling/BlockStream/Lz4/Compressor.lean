import BlockStream.Block.Compressor
import BlockStream.Lz4.Decoder
import BlockStream.Lz4.Encoder

/-! # LZ4 as a block compressor -/

namespace BlockStream

/-- The LZ4 block format; the level is the acceleration of the search. -/
def lz4 : BlockCompressor where
  bound := Lz4.bound
  compress block level _ dst := Lz4.compressInto block level dst
  decompress block _ dst := Lz4.decompressInto block dst

end BlockStream
