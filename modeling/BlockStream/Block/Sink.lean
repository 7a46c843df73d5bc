import BlockStream.Block.Outcome

/-!
# Sinks

A `Sink` writes into a destination of fixed size and counts all bytes that it is asked to write,
also those that do not fit. So the count says in the end how large the destination would have to
be.
-/

namespace BlockStream

/-- A destination and the number of bytes written to it so far. -/
structure Sink (capacity : Nat) where
  buffer : Buffer capacity
  mark : Nat

namespace Sink

variable {capacity : Nat}

def ofBuffer (b : Buffer capacity) : Sink capacity := ⟨b, 0⟩

/-- The number of bytes that still fit. -/
@[inline] def room (s : Sink capacity) : Nat := capacity - s.mark

/-- Every byte written so far fitted. -/
def Fits (s : Sink capacity) : Prop := s.mark ≤ capacity

instance (s : Sink capacity) : Decidable s.Fits := inferInstanceAs (Decidable (_ ≤ _))

def written (s : Sink capacity) : List UInt8 := s.buffer.toList.take s.mark

@[inline] def push (s : Sink capacity) (value : UInt8) : Sink capacity :=
  ⟨s.buffer.set s.mark value, s.mark + 1⟩

/-- Write `length` bytes of `source`, from `start` on. -/
def pushSlice (s : Sink capacity) (source : ByteArray) (start length : Nat) : Sink capacity :=
  ⟨s.buffer.blit s.mark source start length, s.mark + length⟩

/-- Write `length` bytes, each a copy of the one `distance` bytes before it. When the distance is
shorter than the length, the bytes written here are themselves repeated. -/
def pushBack (s : Sink capacity) (distance length : Nat) : Sink capacity :=
  let start := s.mark - distance
  if length ≤ distance then
    let piece := s.buffer.bytes.extract start (start + length)
    ⟨s.buffer.blit s.mark piece 0 length, s.mark + length⟩
  else
    ⟨s.buffer.copyBytes start s.mark length, s.mark + length⟩

def finish (s : Sink capacity) : Outcome capacity :=
  ⟨if s.Fits then .ok s.mark else .error .outputTooSmall, s.buffer⟩

/-! ## The bytes written -/

@[simp] theorem written_ofBuffer (b : Buffer capacity) : (ofBuffer b).written = [] := rfl

theorem length_written {s : Sink capacity} (h : s.Fits) : s.written.length = s.mark :=
  s.buffer.length_take_toList h

theorem written_push {s : Sink capacity} (value : UInt8) (h : (s.push value).Fits) :
    (s.push value).written = s.written ++ [value] := by
  have hlt : s.mark < s.buffer.toList.length := by
    rw [Buffer.length_toList]
    exact h
  simp only [written, push, Buffer.toList_set]
  rw [List.take_succ_eq_append_getElem (by rw [List.length_set]; exact hlt), List.getElem_set_self,
    List.take_set_of_le (Nat.le_refl _)]

theorem written_pushSlice {s : Sink capacity} {source : ByteArray} {start length : Nat}
    (hs : start + length ≤ source.size) (h : (s.pushSlice source start length).Fits) :
    (s.pushSlice source start length).written =
      s.written ++ (source.data.toList.drop start).take length := by
  simp only [written, pushSlice]
  rw [Buffer.toList_blit _ h hs]
  exact List.take_left' (s.buffer.length_front_blit h hs)

end Sink

end BlockStream
