import BlockStream.Block.Outcome
import BlockStream.Record.Basic

/-! # Stream errors -/

namespace BlockStream

/-- Why a stream operation has no result. -/
inductive StreamError where
  /-- The compressor has no worst-case size for this many bytes. -/
  | bound (length : Nat)
  /-- A block cannot be compressed. -/
  | compress (block : Nat) (source : BlockError)
  /-- A record cannot be decompressed. -/
  | decompress (record offset : Nat) (source : BlockError)
  /-- The stream is not a series of records. -/
  | format (source : FormatError)
  deriving DecidableEq, Repr

namespace StreamError

/-- The text of the error that caused this one. -/
def cause : StreamError → Option String
  | .bound _ => none
  | .compress _ source => some source.message
  | .decompress _ _ source => some source.message
  | .format source => some source.message

def message : StreamError → String
  | .bound length => s!"compressor cannot bound {length} bytes"
  | .compress block source => s!"block {block} failed to compress: {source.message}"
  | .decompress record offset source =>
    s!"record {record} at offset {offset} failed to decompress: {source.message}"
  | .format source => s!"stream format error: {source.message}"

/-- The bytes of the stream are at fault. -/
def isFormat : StreamError → Bool
  | .format _ => true
  | _ => false

/-- The block compressor reported the error. -/
def isCodec : StreamError → Bool
  | .compress .. | .decompress .. => true
  | _ => false

end StreamError

end BlockStream
