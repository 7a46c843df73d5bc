import BlockStream.Proofs.Random.Xorshift128

/-!
# What a seed leaves of a generator

A seed replaces the two newest words of a state. The two oldest come to light one after the other:
each draw mixes the oldest word into the newest, which is known, and this can be undone.
-/

namespace BlockStream.Xorshift128

variable {g g' : Xorshift128}

theorem step_w_eq_iff (hw : g.w = g'.w) : g.step.w = g'.step.w ↔ g.x = g'.x := by
  rw [step_eq, step_eq, hw]
  constructor
  · intro h
    exact eq_of_mix_eq ((UInt32.xor_right_inj _).1 h)
  · intro h
    simp only [h]

/-- **A state after a seed is known by the words that the seed kept.** -/
theorem reseed_eq_iff (seed : UInt32) :
    g.reseed seed = g'.reseed seed ↔ g.x = g'.x ∧ g.y = g'.y := by
  simp [reseed]

/-- **Two draws tell the words that a seed kept.** The first one tells the oldest word. When it is
the same, the newest words agree again, and the second draw tells the other word in the same way.
-/
theorem outputs_two_reseed_iff (g g' : Xorshift128) (seed : UInt32) :
    outputs 2 (g.reseed seed) = outputs 2 (g'.reseed seed) ↔ g.x = g'.x ∧ g.y = g'.y := by
  have hfirst : (g.reseed seed).step.w = (g'.reseed seed).step.w ↔ g.x = g'.x := step_w_eq_iff rfl
  simp only [outputs, List.cons.injEq, and_true]
  constructor
  · rintro ⟨hw, hw'⟩
    exact ⟨hfirst.1 hw, (step_w_eq_iff hw).1 hw'⟩
  · rintro ⟨hx, hy⟩
    have hw := hfirst.2 hx
    exact ⟨hw, (step_w_eq_iff hw).2 hy⟩

/-- **What generators draw after a seed.** Two of them draw the same two numbers after the same seed
exactly when they kept the same words, and then they draw the same numbers for ever. So a generator
that is reseeded draws what a new one does for this seed exactly when it still has the two oldest
words of a new one. -/
theorem outputs_reseed_eq_iff (g g' : Xorshift128) (seed : UInt32) :
    (outputs 2 (g.reseed seed) = outputs 2 (g'.reseed seed) ↔ g.x = g'.x ∧ g.y = g'.y) ∧
      ((∀ n, outputs n (g.reseed seed) = outputs n (g'.reseed seed)) ↔ g.x = g'.x ∧ g.y = g'.y) ∧
      ((∀ n, outputs n (g.reseed seed) = outputs n (initial.reseed seed)) ↔
        g.x = initial.x ∧ g.y = initial.y) := by
  have hall (g' : Xorshift128) :
      (∀ n, outputs n (g.reseed seed) = outputs n (g'.reseed seed)) ↔ g.x = g'.x ∧ g.y = g'.y := by
    constructor
    · intro h
      exact (outputs_two_reseed_iff g g' seed).1 (h 2)
    · intro hkept n
      rw [(reseed_eq_iff seed).2 hkept]
  exact ⟨outputs_two_reseed_iff g g' seed, hall g', hall initial⟩

/-- A generator that has drawn once keeps other words than a new one. -/
example : outputs 1 (initial.step.reseed 7) ≠ outputs 1 (initial.reseed 7) := by decide

end BlockStream.Xorshift128
