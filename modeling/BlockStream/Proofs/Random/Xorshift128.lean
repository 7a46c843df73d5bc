import BlockStream.Random.Xorshift128

/-!
# Steps of the xorshift generator

A step drops no information: the oldest word goes into the newest one through `mix`, which can be
undone. So the state of zeros comes from no other state.
-/

namespace BlockStream

/-! ## Shifts -/

/-- A way to shift bits towards one end of a word, where they drop out. -/
structure IsShift {width : Nat} (shift : Nat → BitVec width → BitVec width) : Prop where
  add : ∀ m n b, shift (m + n) b = shift n (shift m b)
  xor : ∀ n a b, shift n (a ^^^ b) = shift n a ^^^ shift n b
  out : ∀ n b, width ≤ n → shift n b = 0

theorem isShift_left (width : Nat) : IsShift fun n (b : BitVec width) => b <<< n where
  add m n b := BitVec.shiftLeft_add b m n
  xor n a b := BitVec.shiftLeft_xor_distrib a b n
  out _ _ h := BitVec.shiftLeft_eq_zero h

theorem isShift_right (width : Nat) : IsShift fun n (b : BitVec width) => b >>> n where
  add m n b := BitVec.shiftRight_add b m n
  xor n a b := BitVec.ushiftRight_xor_distrib a b n
  out _ _ h := BitVec.ushiftRight_eq_zero h

namespace IsShift

variable {width k : Nat} {shift : Nat → BitVec width → BitVec width} {a b : BitVec width}

/-- A word that is its own shift can be shifted until nothing is left of it. -/
theorem eq_zero_of_eq (h : IsShift shift) (hk : 0 < k) (hb : shift k b = b) : b = 0 := by
  have hmany : ∀ n, shift ((n + 1) * k) b = b := by
    intro n
    induction n with
    | zero => rwa [Nat.zero_add, Nat.one_mul]
    | succ n ih => rw [Nat.succ_mul, h.add, ih, hb]
  have hwidth : width ≤ (width + 1) * k :=
    Nat.le_trans (Nat.le_succ width) (Nat.le_mul_of_pos_right _ hk)
  rw [← hmany width, h.out _ _ hwidth]

/-- **The difference of a word and its shift determines the word.** -/
theorem eq_of_xor (h : IsShift shift) (hk : 0 < k) (hab : a ^^^ shift k a = b ^^^ shift k b) :
    a = b := by
  have hdiff : shift k (a ^^^ b) = a ^^^ b := by
    rw [h.xor]
    apply BitVec.xor_eq_zero_iff.1
    calc shift k a ^^^ shift k b ^^^ (a ^^^ b)
        = (a ^^^ shift k a) ^^^ (b ^^^ shift k b) := by ac_rfl
      _ = 0 := by rw [hab]; exact BitVec.xor_self
  exact BitVec.xor_eq_zero_iff.1 (h.eq_zero_of_eq hk hdiff)

end IsShift

namespace Xorshift128

variable {x y seed : UInt32} {g g' : Xorshift128}

/-! ## Steps -/

/-- What the oldest word adds to the newest one. -/
def mix (x : UInt32) : UInt32 := (x ^^^ (x <<< 11)) ^^^ ((x ^^^ (x <<< 11)) >>> 8)

theorem eq_of_mix_eq (h : mix x = mix y) : x = y := by
  have hright : (x ^^^ (x <<< 11)).toBitVec = (y ^^^ (y <<< 11)).toBitVec :=
    (isShift_right 32).eq_of_xor (k := 8) (by decide) (congrArg UInt32.toBitVec h)
  have hleft : x.toBitVec = y.toBitVec := (isShift_left 32).eq_of_xor (k := 11) (by decide) hright
  exact UInt32.toBitVec_inj.1 hleft

theorem step_eq (g : Xorshift128) :
    g.step = ⟨g.y, g.z, g.w, g.w ^^^ (g.w >>> 19) ^^^ mix g.x⟩ := rfl

/-- **No two states have the same successor.** -/
theorem eq_of_step_eq (h : g.step = g'.step) : g = g' := by
  obtain ⟨x, y, z, w⟩ := g
  obtain ⟨x', y', z', w'⟩ := g'
  simp only [step_eq, Xorshift128.mk.injEq] at h
  obtain ⟨rfl, rfl, rfl, hw⟩ := h
  rw [eq_of_mix_eq ((UInt32.xor_right_inj _).1 hw)]

/-! ## The state of zeros -/

def zero : Xorshift128 := ⟨0, 0, 0, 0⟩

@[simp] theorem step_zero : zero.step = zero := by decide

theorem next_zero : zero.next = (0, zero) := by decide

theorem step_eq_zero_iff : g.step = zero ↔ g = zero := by
  constructor
  · intro h
    exact eq_of_step_eq (h.trans step_zero.symm)
  · rintro rfl
    exact step_zero

theorem reseed_eq_zero_iff : g.reseed seed = zero ↔ seed = 0 ∧ g.x = 0 ∧ g.y = 0 := by
  simp only [reseed, zero, Xorshift128.mk.injEq]
  constructor
  · rintro ⟨hx, hy, -, hw⟩
    exact ⟨hw, hx, hy⟩
  · rintro ⟨rfl, hx, hy⟩
    exact ⟨hx, hy, by decide, rfl⟩

theorem outputs_zero (n : Nat) : outputs n zero = List.replicate n 0 := by
  induction n with
  | zero => rfl
  | succ n ih =>
    rw [outputs, next_zero, ih, List.replicate_succ]

def words (g : Xorshift128) : List UInt32 := [g.x, g.y, g.z, g.w]

theorem words_eq_zero_iff : (∀ value ∈ g.words, value = 0) ↔ g = zero := by
  obtain ⟨x, y, z, w⟩ := g
  simp [words, zero]

theorem outputs_four (g : Xorshift128) : outputs 4 g = (advance 4 g).words := rfl

theorem advance_eq_zero_iff (n : Nat) : advance n g = zero ↔ g = zero := by
  induction n generalizing g with
  | zero => rfl
  | succ n ih =>
    rw [advance, ih]
    exact step_eq_zero_iff

/-- **Zeros only are drawn from the state of zeros only.** -/
theorem outputs_eq_zero_iff : (∀ n, outputs n g = List.replicate n 0) ↔ g = zero := by
  constructor
  · intro h
    apply (advance_eq_zero_iff 4).1
    apply words_eq_zero_iff.1
    intro value hvalue
    rw [← outputs_four, h 4] at hvalue
    exact List.eq_of_mem_replicate hvalue
  · rintro rfl n
    exact outputs_zero n

end Xorshift128

end BlockStream
