/-! # The version of the library -/

namespace BlockStream

structure Version where
  major : Nat
  minor : Nat
  release : Nat
  deriving DecidableEq, Repr

def version : Version := ⟨0, 3, 0⟩

namespace Version

/-- A version as one number, with two digits for each part after the first. -/
def number (v : Version) : Nat := v.major * 10000 + v.minor * 100 + v.release

def text (v : Version) : String := s!"{v.major}.{v.minor}.{v.release}"

end Version

end BlockStream
