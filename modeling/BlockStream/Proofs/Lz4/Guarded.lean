import BlockStream.Bytes.Checked
import BlockStream.Proofs.Lz4.WorstCase

/-!
# Writing sequences with checks

The two halves of a sequence, with a check at every step. Literals go out before the length of the
match after them is known, so its part of the token is filled in later. A write that does not fit
ends the whole program.
-/

namespace BlockStream

open Lz4

/-- Why a checked encoder stops. -/
inductive Halt where
  /-- The block is turned down, as the caller is told. -/
  | refused (e : BlockError)
  /-- An access faults, or a loop uses up its allowance. -/
  | fault (f : Fault)
  /-- A number is too large for the type that it is turned into. -/
  | tooLarge
  /-- A table remembers a position that does not lie before the one to be looked up. -/
  | ahead
  /-- A match ends before the position at which it was found, or there. -/
  | stuck
  deriving DecidableEq, Repr

/-! ## Programs that may be refused -/

section Attains

variable {α β : Type} {capacity size : Nat} {x : Except Halt α} {f : α → Except Halt β}
variable {P : α → Prop} {Q : β → Prop}

/-- The program has a result with a property. Only if its output has more bytes than there is room
for, `size` of them, it may be refused for that. -/
def Attains (capacity size : Nat) (x : Except Halt α) (P : α → Prop) : Prop :=
  (∃ a, x = pure a ∧ P a) ∨ x = throw (.refused .outputTooSmall) ∧ capacity < size

theorem attains_pure {a : α} (h : P a) : Attains capacity size (pure a) P := Or.inl ⟨a, rfl, h⟩

/-- **One program after the other.** -/
theorem Attains.bind (h : Attains capacity size x P)
    (hf : ∀ a, P a → Attains capacity size (f a) Q) : Attains capacity size (x >>= f) Q := by
  rcases h with ⟨a, rfl, ha⟩ | ⟨rfl, hroom⟩
  · exact hf a ha
  · exact Or.inr ⟨rfl, hroom⟩

end Attains

/-- A sink within its destination, and the bytes written to it. -/
structure Holds {capacity : Nat} (s : Sink capacity) (bytes : List UInt8) : Prop where
  fits : s.Fits
  written : s.written = bytes

namespace Holds

variable {capacity : Nat} {s s' : Sink capacity} {before piece : List UInt8}

theorem mark_eq (h : Holds s before) : s.mark = before.length := by
  rw [← h.written, Sink.length_written h.fits]

theorem yields (h : Holds s before) : Outcome.Yields ⟨.ok s.mark, s.buffer⟩ before :=
  h.written ▸ Sink.yields_of_fits h.fits

theorem append (h : Holds s before) (happ : s.Appends s' piece) (hfits : s'.Fits) :
    Holds s' (before ++ piece) :=
  ⟨hfits, by rw [happ.2 hfits, h.written]⟩

/-- A write that fits adds its bytes, and one that does not shows that the output is too large. -/
theorem attains_write {size : Nat} (h : Holds s before) (happ : s.Appends s' piece)
    (hsize : (before ++ piece).length ≤ size) :
    Attains capacity size
      (if s'.mark ≤ capacity then pure s' else throw (.refused .outputTooSmall))
      (Holds · (before ++ piece)) := by
  by_cases hfits : s'.mark ≤ capacity
  · rw [if_pos hfits]
    exact attains_pure (h.append happ hfits)
  · rw [if_neg hfits]
    refine Or.inr ⟨rfl, ?_⟩
    have hmark := happ.1
    rw [h.mark_eq] at hmark
    rw [List.length_append] at hsize
    omega

theorem set {value : UInt8} {after : List UInt8} (h : Holds s (before ++ value :: after))
    (new : UInt8) :
    Holds ⟨s.buffer.set before.length new, s.mark⟩ (before ++ new :: after) := by
  refine ⟨h.fits, ?_⟩
  have hwritten : s.buffer.toList.take s.mark = before ++ value :: after := h.written
  rw [Sink.written, Buffer.toList_set, List.take_set, hwritten, List.set_append_right _ _ (by simp),
    Nat.sub_self, List.set_cons_zero]

end Holds

namespace Checked

variable {α : Type} {capacity size : Nat}

/-! ## Numbers and accesses -/

/-- A checked access of an encoder. -/
def access (x : Except Fault α) : Except Halt α := x.mapError .fault

@[simp] theorem access_pure (a : α) : access (pure a) = pure a := rfl

/-- A number that is turned into a type with `limit` values. -/
def narrow (n limit : Nat) : Except Halt Nat := if n < limit then pure n else throw .tooLarge

theorem narrow_of_lt {n limit : Nat} (h : n < limit) : narrow n limit = pure n := if_pos h

/-! ## Writes -/

def push (s : Sink capacity) (value : UInt8) : Except Halt (Sink capacity) :=
  if s.mark < capacity then pure (s.push value) else throw (.refused .outputTooSmall)

def extend (s : Sink capacity) (bytes : ByteArray) : Except Halt (Sink capacity) :=
  if s.mark + bytes.size ≤ capacity then pure (s.pushSlice bytes 0 bytes.size)
  else throw (.refused .outputTooSmall)

def pushLength : (rounds : Nat) → (s : Sink capacity) → (n : Nat) → Except Halt (Sink capacity)
  | 0, _, _ => throw (.fault .unfinished)
  | rounds + 1, s, n =>
    if 255 ≤ n then do
      let s ← push s 255
      let rest ← access (sub n 255)
      pushLength rounds s rest
    else do
      let last ← narrow n 256
      push s last.toUInt8

def pushToken (s : Sink capacity) (length : Nat) : Except Halt (Sink capacity) :=
  if fieldMax ≤ length then do
    let field ← narrow (fieldMax <<< 4) 256
    let s ← push s field.toUInt8
    let rest ← access (sub length fieldMax)
    pushLength (rest + 1) s rest
  else do
    let field ← narrow (length <<< 4) 256
    push s field.toUInt8

/-- Write a token and literals. The place of the token is handed back with the sink. -/
def literals (s : Sink capacity) (run : ByteArray) : Except Halt (Nat × Sink capacity) := do
  let out ← pushToken s run.size
  let out ← extend out run
  return (s.mark, out)

def fillToken (s : Sink capacity) (place field : Nat) : Except Halt (Sink capacity) := do
  let value ← access (byte s.buffer.bytes place)
  let low ← narrow field 256
  let buffer ← access (set s.buffer place (value ||| low.toUInt8))
  return ⟨buffer, s.mark⟩

/-- Write the reference of a match, and fill in its part of the token at `place`. -/
def matched (s : Sink capacity) (place distance length : Nat) : Except Halt (Sink capacity) := do
  let distance ← narrow distance 65536
  let s ← extend s ⟨(littleEndian 2 distance).toArray⟩
  let excess ← access (sub length minMatch)
  if fieldMax ≤ excess then
    let s ← fillToken s place fieldMax
    let rest ← access (sub excess fieldMax)
    pushLength (rest + 1) s rest
  else fillToken s place excess

/-! ## What is written -/

section Writes

variable {s : Sink capacity} {before : List UInt8} {value : UInt8} {n excess distance length : Nat}

theorem attains_push (h : Holds s before) (hsize : (before ++ [value]).length ≤ size) :
    Attains capacity size (push s value) (Holds · (before ++ [value])) :=
  h.attains_write (Sink.appends_push s value) hsize

theorem attains_extend {bytes : ByteArray} (h : Holds s before)
    (hsize : (before ++ bytes.data.toList).length ≤ size) :
    Attains capacity size (extend s bytes) (Holds · (before ++ bytes.data.toList)) := by
  have happ := s.appends_pushSlice (Nat.le_of_eq (Nat.zero_add bytes.size))
  rw [bytesFrom, List.drop_zero, ← length_toList_data, List.take_length] at happ
  exact h.attains_write happ hsize

theorem attains_pushLength {rounds : Nat} (h : Holds s before) (hrounds : n < rounds)
    (hsize : (before ++ lengthBytes n).length ≤ size) :
    Attains capacity size (pushLength rounds s n) (Holds · (before ++ lengthBytes n)) := by
  induction rounds generalizing s n before with
  | zero => omega
  | succ rounds ih =>
    rw [pushLength]
    by_cases hlong : 255 ≤ n
    · obtain ⟨m, rfl⟩ := Nat.exists_eq_add_of_le' hlong
      rw [lengthBytes_add, List.append_cons] at hsize ⊢
      rw [if_pos hlong]
      refine (attains_push h ?_).bind fun s' hs' => ?_
      · rw [List.length_append] at hsize
        omega
      · rw [sub_of_le hlong, Nat.add_sub_cancel]
        exact ih hs' (by omega) hsize
    · rw [if_neg hlong, narrow_of_lt (by omega)]
      rw [lengthBytes_of_lt (by omega)] at hsize ⊢
      exact attains_push h hsize

theorem toUInt8_shiftLeft (n : Nat) : (min n fieldMax <<< 4).toUInt8 = token n 0 := by
  rw [Nat.shiftLeft_eq, Nat.mul_comm]
  rfl

theorem attains_pushToken (h : Holds s before)
    (hsize : (before ++ token n 0 :: lengthTail n).length ≤ size) :
    Attains capacity size (pushToken s n) (Holds · (before ++ token n 0 :: lengthTail n)) := by
  have htoken := toUInt8_shiftLeft n
  rw [List.append_cons] at hsize ⊢
  rw [pushToken]
  by_cases hlong : fieldMax ≤ n
  · rw [Nat.min_eq_right hlong] at htoken
    rw [lengthTail_of_le hlong] at hsize ⊢
    rw [if_pos hlong, narrow_of_lt (by decide), pure_bind, htoken, sub_of_le hlong]
    refine (attains_push h ?_).bind fun s' hs' => attains_pushLength hs' (Nat.lt_succ_self _) hsize
    rw [List.length_append] at hsize
    omega
  · rw [Nat.min_eq_left (by omega)] at htoken
    rw [lengthTail_of_lt (Nat.not_le.1 hlong), List.append_nil] at hsize ⊢
    rw [if_neg hlong, narrow_of_lt (by unfold fieldMax at hlong; omega), pure_bind, htoken]
    exact attains_push h hsize

/-- **What a sink holds after literals.** -/
theorem attains_literals {run : ByteArray} (h : Holds s before)
    (hsize : (before ++ literalBytes run.data.toList 0).length ≤ size) :
    Attains capacity size (literals s run) fun r =>
      r.1 = before.length ∧ Holds r.2 (before ++ literalBytes run.data.toList 0) := by
  have hbytes : before ++ literalBytes run.data.toList 0 =
      before ++ token run.size 0 :: lengthTail run.size ++ run.data.toList := by
    rw [literalBytes, List.cons_append, List.append_assoc]
    rfl
  rw [hbytes] at hsize ⊢
  refine (attains_pushToken h ?_).bind fun s' hs' => (attains_extend hs' hsize).bind fun s'' hs'' =>
    attains_pure ⟨h.mark_eq, hs''⟩
  rw [List.length_append] at hsize
  omega

theorem fillToken_of_holds {after : List UInt8} (h : Holds s (before ++ token n 0 :: after))
    (hexcess : excess ≤ fieldMax) :
    ∃ s', fillToken s before.length excess = pure s' ∧
      Holds s' (before ++ token n excess :: after) := by
  have hmark := h.mark_eq
  have hfits : s.mark ≤ capacity := h.fits
  have hlt : before.length < capacity := by
    rw [List.length_append, List.length_cons] at hmark
    omega
  have hbyte : byteAt s.buffer.bytes before.length = token n 0 := by
    have hmarked : before.length < s.mark := by
      rw [hmark, List.length_append, List.length_cons]
      omega
    have hget : s.written.getD before.length 0 = token n 0 := by simp [h.written]
    rwa [Sink.written, getD_take hmarked, Buffer.toList, ← byteAt_eq_getD] at hget
  refine ⟨_, ?_, h.set (token n excess)⟩
  rw [fillToken, byte_of_lt (by rwa [s.buffer.size_eq]), access_pure, pure_bind, hbyte,
    narrow_of_lt (by unfold fieldMax at hexcess; omega), pure_bind, set_of_lt hlt,
    or_token n excess hexcess]
  rfl

/-- **What a sink holds after a match.** -/
theorem attains_matched {run : List UInt8} (h : Holds s (before ++ literalBytes run 0))
    (hdistance : distance ≤ maxDistance) (hlength : minMatch ≤ length)
    (hsize : (before ++ literalBytes run (length - minMatch) ++
      referenceBytes distance (length - minMatch)).length ≤ size) :
    Attains capacity size (matched s before.length distance length) (Holds ·
      (before ++ literalBytes run (length - minMatch) ++
        referenceBytes distance (length - minMatch))) := by
  have htoken : token run.length (min (length - minMatch) fieldMax) =
      token run.length (length - minMatch) := by
    rw [token, Nat.min_assoc, Nat.min_self]
    rfl
  have hbytes (excess : Nat) :
      before ++ literalBytes run excess ++ referenceBytes distance (length - minMatch) =
        before ++ token run.length excess ::
          (lengthTail run.length ++ run ++ littleEndian 2 distance) ++
            lengthTail (length - minMatch) := by
    simp only [literalBytes, referenceBytes, List.cons_append, List.append_assoc]
  rw [hbytes, ← htoken] at hsize ⊢
  rw [matched, narrow_of_lt (show distance < 65536 from Nat.lt_succ_of_le hdistance), pure_bind]
  refine (attains_extend h ?_).bind fun s' hs' => ?_
  · simp only [literalBytes, List.length_append, List.length_cons] at hsize ⊢
    omega
  · replace hs' : Holds s' (before ++ token run.length 0 ::
        (lengthTail run.length ++ run ++ littleEndian 2 distance)) := by
      simpa only [literalBytes, List.cons_append, List.append_assoc] using hs'
    rw [sub_of_le hlength, access_pure, pure_bind]
    by_cases hlong : fieldMax ≤ length - minMatch
    · rw [Nat.min_eq_right hlong, lengthTail_of_le hlong] at hsize ⊢
      obtain ⟨s'', hfill, hs''⟩ := fillToken_of_holds hs' (Nat.le_refl _)
      rw [if_pos hlong, hfill, pure_bind, sub_of_le hlong]
      exact attains_pushLength hs'' (Nat.lt_succ_self _) hsize
    · rw [Nat.min_eq_left (Nat.le_of_not_le hlong), lengthTail_of_lt (Nat.not_le.1 hlong),
        List.append_nil]
      obtain ⟨s'', hfill, hs''⟩ := fillToken_of_holds hs' (Nat.le_of_not_le hlong)
      rw [if_neg hlong, hfill]
      exact attains_pure hs''

end Writes

end Checked

end BlockStream
