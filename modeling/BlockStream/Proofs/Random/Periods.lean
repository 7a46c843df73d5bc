import BlockStream.Proofs.Random.Xorshift128
import Mathlib.Dynamics.PeriodicPts.Lemmas
import Mathlib.SetTheory.Cardinal.Finite

/-!
# The states of a generator go round

A step can be undone, and there are finitely many states. So from every state a generator comes
back to it: there is no run-up before the numbers begin to repeat.
-/

namespace BlockStream.Xorshift128

variable {g : Xorshift128}

/-! ## States -/

def equivWords : Xorshift128 ≃ Fin (2 ^ 32) × Fin (2 ^ 32) × Fin (2 ^ 32) × Fin (2 ^ 32) where
  toFun g := (g.x.toFin, g.y.toFin, g.z.toFin, g.w.toFin)
  invFun b := ⟨.ofFin b.1, .ofFin b.2.1, .ofFin b.2.2.1, .ofFin b.2.2.2⟩
  left_inv _ := rfl
  right_inv _ := rfl

instance : Finite Xorshift128 := Finite.of_equiv _ equivWords.symm

theorem card_states : Nat.card Xorshift128 = 2 ^ 128 := by
  simp only [Nat.card_congr equivWords, Nat.card_prod, Nat.card_fin, ← Nat.pow_add]

/-! ## Draws one after the other -/

theorem advance_eq_iterate (n : Nat) (g : Xorshift128) : advance n g = step^[n] g := by
  induction n generalizing g with
  | zero => rfl
  | succ n ih => exact ih g.step

theorem advance_add (m n : Nat) (g : Xorshift128) :
    advance (m + n) g = advance n (advance m g) := by
  rw [Nat.add_comm]
  simp only [advance_eq_iterate]
  exact Function.iterate_add_apply ..

theorem outputs_add (m n : Nat) (g : Xorshift128) :
    outputs (m + n) g = outputs m g ++ outputs n (advance m g) := by
  induction m generalizing g with
  | zero => rw [Nat.zero_add]; rfl
  | succ m ih =>
    rw [Nat.succ_add]
    exact congrArg (g.next.1 :: ·) (ih g.next.2)

@[simp] theorem length_outputs (n : Nat) (g : Xorshift128) : (outputs n g).length = n := by
  induction n generalizing g with
  | zero => rfl
  | succ n ih => simp [outputs, ih]

/-! ## Permutations -/

/-- **Steps permute the states**, because no two of them have the same successor. -/
theorem bijective_step : Function.Bijective step :=
  Finite.injective_iff_bijective.1 fun _ _ => eq_of_step_eq

/-- **A generator comes back to every state that it is in.** -/
theorem exists_advance_eq_self (g : Xorshift128) : ∃ n, 0 < n ∧ advance n g = g := by
  have hperiodic : g ∈ Function.periodicPts step := bijective_step.injective.mem_periodicPts g
  obtain ⟨n, hn, hback⟩ := Function.mem_periodicPts.1 hperiodic
  exact ⟨n, hn, (advance_eq_iterate n g).trans hback⟩

theorem outputs_of_advance_eq_self {n : Nat} (h : advance n g = g) (k : Nat) :
    outputs (n + k) g = outputs n g ++ outputs k g := by
  rw [outputs_add, h]

/-! ## The last four numbers -/

/-- **The last four numbers that were drawn are the words of the state.** -/
theorem drop_outputs (n : Nat) (g : Xorshift128) :
    (outputs (n + 4) g).drop n = (advance (n + 4) g).words := by
  rw [outputs_add, List.drop_left' (length_outputs n g), advance_add]
  exact outputs_four (advance n g)

theorem exists_ne_zero_iff :
    (∀ n, ∃ value ∈ (outputs (n + 4) g).drop n, value ≠ 0) ↔ g ≠ zero := by
  simp only [drop_outputs]
  constructor
  · rintro h rfl
    obtain ⟨value, hmem, hne⟩ := h 0
    exact hne (words_eq_zero_iff.2 ((advance_eq_zero_iff 4).2 rfl) value hmem)
  · intro h n
    by_contra hzero
    push Not at hzero
    exact h ((advance_eq_zero_iff (n + 4)).1 (words_eq_zero_iff.1 hzero))

/-- **Draws permute the states.** From every state some number of draws leads back to it, and from
there the same numbers follow. The state of zeros is entered from itself only, the state after four
or more draws is the last four numbers, and unless all numbers are zero there is another one among
any four in a row. -/
theorem draws_permute_states :
    Nat.card Xorshift128 = 2 ^ 128 ∧ Function.Bijective (fun g : Xorshift128 => g.next.2) ∧
      ∀ g : Xorshift128,
        (∃ n, 0 < n ∧ advance n g = g ∧ ∀ k, outputs (n + k) g = outputs n g ++ outputs k g) ∧
          (∀ n, advance n g = zero ↔ g = zero) ∧
          (∀ n, (outputs (n + 4) g).drop n = (advance (n + 4) g).words) ∧
          ((∀ n, ∃ value ∈ (outputs (n + 4) g).drop n, value ≠ 0) ↔ g ≠ zero) := by
  refine ⟨card_states, bijective_step, fun g => ⟨?_, fun n => advance_eq_zero_iff n,
    fun n => drop_outputs n g, exists_ne_zero_iff⟩⟩
  obtain ⟨n, hn, hback⟩ := exists_advance_eq_self g
  exact ⟨n, hn, hback, outputs_of_advance_eq_self hback⟩

end BlockStream.Xorshift128
