import BlockStream.Proofs.Random.Xorshift128
import BlockStream.Random.Service
import Mathlib.Data.List.Induction

/-!
# How a service loses its fast generator

Draws do not lead to the state of zeros, and neither do most seeds; but a seed replaces only the
two newest words, and the two that it keeps may be zero.
-/

namespace BlockStream

open Xorshift128 (zero)

/-- The uniform generator that draws the lowest number every time. -/
def Uniform.lowest : Uniform := ⟨Unit, fun _ => (0, ()), fun _ => (0, ()), fun min _ _ => (min, ())⟩

/-! ## The last seed -/

/-- The last reseeding among `calls` has the seed `seed`, and the calls `before` it. -/
def LastSeed (calls before : List (Nat × Call)) (seed : UInt32) : Prop :=
  ∃ thread after, calls = before ++ (thread, .seedFast seed) :: after ∧
    ∀ call ∈ after, ∀ other, call.2 ≠ .seedFast other

variable {calls before : List (Nat × Call)} {thread : Nat} {call : Call} {seed last : UInt32}

theorem not_lastSeed_nil : ¬ LastSeed [] before last := by
  rintro ⟨thread, after, h, -⟩
  cases before <;> cases h

theorem lastSeed_append_iff :
    LastSeed (calls ++ [(thread, call)]) before last ↔
      call = .seedFast last ∧ before = calls ∨
        (∀ seed, call ≠ .seedFast seed) ∧ LastSeed calls before last := by
  constructor
  · rintro ⟨thread', after, h, hafter⟩
    obtain rfl | ⟨after, call', rfl⟩ := after.eq_nil_or_concat
    · obtain ⟨rfl, hcall⟩ := List.append_inj' h rfl
      cases hcall
      exact Or.inl ⟨rfl, rfl⟩
    · rw [List.concat_eq_append] at h hafter
      rw [← List.cons_append, ← List.append_assoc] at h
      obtain ⟨rfl, hcall⟩ := List.append_inj' h rfl
      cases hcall
      exact Or.inr ⟨hafter _ (List.mem_append_right _ List.mem_cons_self), thread', after, rfl,
        fun c hc => hafter c (List.mem_append_left _ hc)⟩
  · rintro (⟨rfl, rfl⟩ | ⟨hcall, thread', after, rfl, hafter⟩)
    · exact ⟨thread, [], rfl, nofun⟩
    · refine ⟨thread', after ++ [(thread, call)], by rw [List.append_assoc]; rfl, ?_⟩
      intro c hc
      obtain hc | hc := List.mem_append.1 hc
      · exact hafter c hc
      · cases List.mem_singleton.1 hc
        exact hcall

namespace Service

variable {U : Uniform} {s : Service U}

/-! ## Runs -/

theorem run_append (s : Service U) (calls rest : List (Nat × Call)) :
    s.run (calls ++ rest) =
      ((s.run calls).1 ++ ((s.run calls).2.run rest).1, ((s.run calls).2.run rest).2) := by
  induction calls generalizing s with
  | nil => rfl
  | cons call calls ih => simp only [List.cons_append, run, ih]

/-- The fast generator after a call. -/
theorem fast_perform (s : Service U) (call : Call) :
    (s.perform call).2.fast =
      match call with
      | .seedFast seed => s.fast.reseed seed
      | .nextFast => s.fast.step
      | _ => s.fast := by
  cases call with
  | range min max =>
    by_cases h : max < min <;> simp [perform, range, h]
  | _ => rfl

theorem fast_run_append (s : Service U) (calls : List (Nat × Call)) (thread : Nat) (call : Call) :
    (s.run (calls ++ [(thread, call)])).2.fast = ((s.run calls).2.perform call).2.fast := by
  rw [run_append]
  rfl

theorem fast_perform_eq_zero_iff (h : ∀ seed, call ≠ .seedFast seed) :
    (s.perform call).2.fast = zero ↔ s.fast = zero := by
  rw [fast_perform]
  cases call with
  | seedFast seed => exact absurd rfl (h seed)
  | nextFast => exact Xorshift128.step_eq_zero_iff
  | _ => exact Iff.rfl

/-- The induction takes the last call off, since it decides whether there is a later seed. -/
theorem fast_run_eq_zero_of_ne (hs : s.fast ≠ zero) (calls : List (Nat × Call)) :
    (s.run calls).2.fast = zero ↔ ∃ before, LastSeed calls before 0 ∧
      (s.run before).2.fast.x = 0 ∧ (s.run before).2.fast.y = 0 := by
  induction calls using List.reverseRecOn with
  | nil => simpa [run, not_lastSeed_nil] using hs
  | append_singleton calls call ih =>
    obtain ⟨thread, call⟩ := call
    rw [fast_run_append]
    simp only [lastSeed_append_iff]
    by_cases hseed : ∃ seed, call = .seedFast seed
    · obtain ⟨seed, rfl⟩ := hseed
      rw [fast_perform, Xorshift128.reseed_eq_zero_iff]
      constructor
      · rintro ⟨rfl, hkept⟩
        exact ⟨calls, Or.inl ⟨rfl, rfl⟩, hkept⟩
      · rintro ⟨before, ⟨hlast, rfl⟩ | ⟨hne, -⟩, hkept⟩
        · exact ⟨Call.seedFast.inj hlast, hkept⟩
        · exact absurd rfl (hne seed)
    · have hne : ∀ seed, call ≠ .seedFast seed := fun seed h => hseed ⟨seed, h⟩
      rw [fast_perform_eq_zero_iff hne, ih]
      simp [hne]

/-- **When the fast generator of a new service degenerates.** Nothing but zeros is drawn any more
exactly in the state of zeros; and the calls end in that state exactly when the last seed among
them is zero and both words that it keeps are zero, too. -/
theorem fast_run_eq_zero_iff (uniform32 uniform64 : U.State) (calls : List (Nat × Call)) :
    let start : Service U := new uniform32 uniform64
    let g := (start.run calls).2.fast
    ((∀ n, g.outputs n = List.replicate n 0) ↔ g = zero) ∧
      (g = zero ↔ ∃ before, LastSeed calls before 0 ∧
        (start.run before).2.fast.x = 0 ∧ (start.run before).2.fast.y = 0) := by
  intro start g
  have hstart : start.fast ≠ zero := by
    show Xorshift128.initial ≠ zero
    decide
  exact ⟨Xorshift128.outputs_eq_zero_iff, fast_run_eq_zero_of_ne hstart calls⟩

/-- Two draws after a first seed of zero make it both words that a second one keeps. -/
theorem fast_run_zero_seeds :
    let start : Service .lowest := new () ()
    let g := (start.run [(0, .seedFast 0), (0, .nextFast), (0, .nextFast), (0, .seedFast 0)]).2.fast
    g = zero ∧ g.outputs 4 = [0, 0, 0, 0] := by
  decide

end Service

end BlockStream
