import BlockStream.Proofs.Random.ZeroState
import Mathlib.Data.List.Basic
import Mathlib.Logic.Function.Basic

/-!
# Threads share one sequence

A schedule says who makes the next call. It is arbitrary, so what is shown here holds for every
number of threads and for every interleaving of their programs.
-/

namespace BlockStream

/-! ## A generator that no one shares -/

namespace Xorshift128

inductive Request where
  | seed (value : UInt32)
  | draw
  deriving DecidableEq, Repr

/-- The numbers that a generator draws for requests, and its state after them. -/
def serve : Xorshift128 → List Request → List UInt32 × Xorshift128
  | g, [] => ([], g)
  | g, .seed value :: rest => (g.reseed value).serve rest
  | g, .draw :: rest =>
    let (value, g) := g.next
    let (values, g) := g.serve rest
    (value :: values, g)

variable {g : Xorshift128}

theorem serve_replicate_draw (n : Nat) :
    g.serve (List.replicate n .draw) = (outputs n g, advance n g) := by
  induction n generalizing g with
  | zero => rfl
  | succ n ih =>
    rw [List.replicate_succ, serve]
    simp only [next, ih]
    rfl

theorem length_serve (requests : List Request) :
    (g.serve requests).1.length = requests.count .draw := by
  induction requests generalizing g with
  | nil => rfl
  | cons request rest ih =>
    cases request with
    | seed value =>
      rw [serve, ih]
      simp
    | draw =>
      simp only [serve, List.length_cons, ih]
      simp

end Xorshift128

open Xorshift128 (Request serve)

/-! ## Threads -/

/-- What one thread has a part in, among the events of all threads. -/
def ofThread {α : Type} (thread : Nat) (events : List (Nat × α)) : List α :=
  events.filterMap fun event => if event.1 = thread then some event.2 else none

/-- The calls of threads in the order of a schedule, which lists the threads that make the next
call. Each thread makes the calls of its program in order; one that has made them all is passed
over. -/
def interleave : (programs : Nat → List Call) → (schedule : List Nat) → List (Nat × Call)
  | _, [] => []
  | programs, thread :: schedule =>
    match programs thread with
    | [] => interleave programs schedule
    | call :: rest => (thread, call) :: interleave (Function.update programs thread rest) schedule

section Threads

variable {α : Type} {thread other : Nat} {call : Call} {rest : List Call}
variable {programs : Nat → List Call} {schedule : List Nat}

theorem ofThread_cons_self (a : α) (events : List (Nat × α)) :
    ofThread thread ((thread, a) :: events) = a :: ofThread thread events := by
  simp [ofThread]

theorem ofThread_cons_of_ne (h : other ≠ thread) (a : α) (events : List (Nat × α)) :
    ofThread thread ((other, a) :: events) = ofThread thread events := by
  simp [ofThread, h]

theorem interleave_of_nil (h : programs thread = []) :
    interleave programs (thread :: schedule) = interleave programs schedule := by
  rw [interleave, h]

theorem interleave_of_cons (h : programs thread = call :: rest) :
    interleave programs (thread :: schedule) =
      (thread, call) :: interleave (Function.update programs thread rest) schedule := by
  rw [interleave, h]

/-- **Every list of calls is an interleaving** of the programs of its threads. -/
theorem interleave_ofThread (calls : List (Nat × Call)) :
    interleave (fun thread => ofThread thread calls) (calls.map Prod.fst) = calls := by
  induction calls with
  | nil => rfl
  | cons event calls ih =>
    obtain ⟨thread, call⟩ := event
    rw [List.map_cons, interleave_of_cons (ofThread_cons_self call calls)]
    have hrest : Function.update (fun t => ofThread t ((thread, call) :: calls)) thread
        (ofThread thread calls) = fun t => ofThread t calls := by
      funext t
      by_cases ht : t = thread
      · rw [ht, Function.update_self]
      · rw [Function.update_of_ne ht, ofThread_cons_of_ne (Ne.symm ht)]
    rw [hrest, ih]

end Threads

/-! ## Draws -/

def Call.fastRequest? : Call → Option Request
  | .seedFast seed => some (.seed seed)
  | .nextFast => some .draw
  | _ => none

/-- What calls ask of the fast generator, in order. -/
def fastRequests (calls : List (Nat × Call)) : List Request := calls.filterMap (·.2.fastRequest?)

/-- The fast numbers among the replies to calls. -/
def drawn : (calls : List Call) → List Reply → List UInt32
  | .nextFast :: calls, .word value :: replies => value :: drawn calls replies
  | _ :: calls, _ :: replies => drawn calls replies
  | _, _ => []

/-- The threads that draw from the fast generator, one after the other. -/
def drawers (calls : List (Nat × Call)) : List Nat :=
  (calls.filter (·.2 = .nextFast)).map Prod.fst

/-- The numbers, among all draws from the fast generator, of those that a thread makes. -/
def turns (calls : List (Nat × Call)) (thread : Nat) : List Nat :=
  (List.range (drawers calls).length).filter fun i => (drawers calls)[i]? = some thread

/-- The numbers of one sequence are dealt out to threads: the turns of a thread are the places of
the numbers that it receives, in this order, and every place is a turn of one thread. -/
structure DealtOut (values : List UInt32) (turns : Nat → List Nat)
    (received : Nat → List UInt32) : Prop where
  increasing : ∀ thread, (turns thread).Pairwise (· < ·)
  covered : ∀ i, i < values.length ↔ ∃ thread, i ∈ turns thread
  disjoint : ∀ i thread other, i ∈ turns thread → i ∈ turns other → thread = other
  received_eq : ∀ thread, (received thread).map some = (turns thread).map (values[·]?)

section Draws

variable {thread : Nat} {call : Call} {calls : List (Nat × Call)} {values : List UInt32}

@[simp] theorem drawn_nil (calls : List Call) : drawn calls [] = [] := by
  rcases calls with _ | ⟨_ | _, _⟩ <;> rfl

theorem drawn_nextFast (value : UInt32) (calls : List Call) (replies : List Reply) :
    drawn (.nextFast :: calls) (.word value :: replies) = value :: drawn calls replies := rfl

theorem drawn_cons_of_ne (h : call ≠ .nextFast) (reply : Reply) (calls : List Call)
    (replies : List Reply) : drawn (call :: calls) (reply :: replies) = drawn calls replies := by
  cases call with
  | nextFast => exact absurd rfl h
  | _ => rfl

theorem drawers_nextFast (thread : Nat) (calls : List (Nat × Call)) :
    drawers ((thread, .nextFast) :: calls) = thread :: drawers calls := by
  simp [drawers]

theorem drawers_cons_of_ne (h : call ≠ .nextFast) (thread : Nat) (calls : List (Nat × Call)) :
    drawers ((thread, call) :: calls) = drawers calls := by
  simp [drawers, h]

theorem count_draw_fastRequests (calls : List (Nat × Call)) :
    (fastRequests calls).count .draw = (drawers calls).length := by
  induction calls with
  | nil => rfl
  | cons event calls ih =>
    obtain ⟨thread, call⟩ := event
    cases call with
    | nextFast =>
      rw [drawers_nextFast, List.length_cons, ← ih]
      exact List.count_cons_self
    | seedFast seed =>
      rw [drawers_cons_of_ne (by simp), ← ih]
      exact List.count_cons_of_ne (by simp)
    | _ =>
      rw [drawers_cons_of_ne (by simp)]
      exact ih

theorem fastRequests_eq_replicate (h : ∀ event ∈ calls, ∀ seed, event.2 ≠ .seedFast seed) :
    fastRequests calls = List.replicate (drawers calls).length .draw := by
  have hdraw : ∀ request ∈ fastRequests calls, request = .draw := by
    intro request hrequest
    obtain ⟨⟨thread, call⟩, hcall, hasked⟩ := List.mem_filterMap.1 hrequest
    cases call with
    | seedFast seed => exact absurd rfl (h _ hcall seed)
    | nextFast => exact (Option.some.inj hasked).symm
    | _ => cases hasked
  have hcount := List.count_eq_length.2 fun request hrequest => (hdraw request hrequest).symm
  exact List.eq_replicate_iff.2 ⟨hcount.symm.trans (count_draw_fastRequests calls), hdraw⟩

/-! ### Turns -/

theorem mem_turns_iff {i : Nat} : i ∈ turns calls thread ↔ (drawers calls)[i]? = some thread := by
  simp only [turns, List.mem_filter, List.mem_range, decide_eq_true_eq, and_iff_right_iff_imp]
  intro h
  exact (List.getElem?_eq_some_iff.1 h).1

theorem map_ofThread_zip (threads : List Nat) (values : List UInt32)
    (h : values.length = threads.length) :
    (ofThread thread (threads.zip values)).map some =
      ((List.range threads.length).filter fun i => threads[i]? = some thread).map
        (values[·]?) := by
  induction threads generalizing values with
  | nil => rfl
  | cons other threads ih =>
    obtain ⟨value, values, rfl⟩ := List.exists_cons_of_length_eq_add_one h
    have hrest := ih values (Nat.succ.inj h)
    rw [List.length_cons, List.range_succ_eq_map, List.zip_cons_cons]
    by_cases hthread : other = thread
    · rw [hthread, ofThread_cons_self]
      simp [List.filter_map, Function.comp_def, hrest]
    · rw [ofThread_cons_of_ne hthread]
      simp [List.filter_map, Function.comp_def, hrest, hthread]

end Draws

namespace Service

variable {U : Uniform} {s : Service U} {call : Call}

/-! ## One call after the other -/

theorem perform_nextFast (s : Service U) :
    s.perform .nextFast = (.word s.fast.step.w, { s with fast := s.fast.step }) := rfl

theorem serve_of_ne (h : call ≠ .nextFast) (s : Service U) (thread : Nat)
    (calls : List (Nat × Call)) :
    s.fast.serve (fastRequests ((thread, call) :: calls)) =
      (s.perform call).2.fast.serve (fastRequests calls) := by
  rw [fast_perform]
  cases call with
  | nextFast => exact absurd rfl h
  | _ => rfl

theorem serve_nextFast (s : Service U) (thread : Nat) (calls : List (Nat × Call)) :
    s.fast.serve (fastRequests ((thread, .nextFast) :: calls)) =
      (s.fast.step.w :: (s.fast.step.serve (fastRequests calls)).1,
        (s.fast.step.serve (fastRequests calls)).2) := rfl

theorem run_cons (s : Service U) (thread : Nat) (call : Call) (calls : List (Nat × Call)) :
    s.run ((thread, call) :: calls) =
      ((thread, (s.perform call).1) :: ((s.perform call).2.run calls).1,
        ((s.perform call).2.run calls).2) := rfl

/-- **The fast generator of a service is one that no one shares.** -/
theorem fast_run_eq_serve (s : Service U) (calls : List (Nat × Call)) :
    (s.run calls).2.fast = (s.fast.serve (fastRequests calls)).2 := by
  induction calls generalizing s with
  | nil => rfl
  | cons event calls ih =>
    obtain ⟨thread, call⟩ := event
    rw [run_cons, ih]
    by_cases hcall : call = .nextFast
    · rw [hcall, serve_nextFast, perform_nextFast]
    · rw [serve_of_ne hcall]

/-- What a thread draws in the course of its program, among the draws of all threads. The induction
is on the schedule, and each turn takes one call off the program of its thread. -/
theorem drawn_ofThread_run (s : Service U) (programs : Nat → List Call) (schedule : List Nat)
    (thread : Nat) :
    let calls := interleave programs schedule
    drawn (programs thread) (ofThread thread (s.run calls).1) =
      ofThread thread ((drawers calls).zip (s.fast.serve (fastRequests calls)).1) := by
  induction schedule generalizing s programs with
  | nil => exact drawn_nil _
  | cons other schedule ih =>
    match hprogram : programs other with
    | [] =>
      rw [interleave_of_nil hprogram]
      exact ih s programs
    | call :: rest =>
      have hrest := ih (s.perform call).2 (Function.update programs other rest)
      rw [interleave_of_cons hprogram]
      dsimp only at hrest ⊢
      rw [run_cons]
      by_cases hthread : other = thread
      · subst hthread
        rw [Function.update_self] at hrest
        rw [hprogram, ofThread_cons_self]
        by_cases hcall : call = .nextFast
        · subst hcall
          rw [serve_nextFast, drawers_nextFast, List.zip_cons_cons, ofThread_cons_self,
            perform_nextFast, drawn_nextFast]
          rw [perform_nextFast] at hrest
          rw [hrest]
        · rw [serve_of_ne hcall, drawers_cons_of_ne hcall, drawn_cons_of_ne hcall, hrest]
      · rw [Function.update_of_ne (Ne.symm hthread)] at hrest
        rw [ofThread_cons_of_ne hthread, hrest]
        by_cases hcall : call = .nextFast
        · subst hcall
          rw [serve_nextFast, drawers_nextFast, List.zip_cons_cons, ofThread_cons_of_ne hthread]
          rfl
        · rw [serve_of_ne hcall, drawers_cons_of_ne hcall]

/-- **Threads share one sequence.** Whatever calls threads make, and in whatever order they take
turns, what they draw from the fast generator is what a generator that no one shares draws for the
same seeds in the same places: each number goes to one draw, and each thread gets its numbers in
order. The generator ends in the same state, too. If there are no seeds among the calls, these are
the next numbers of the sequence, as many as there are draws. -/
theorem dealtOut_run (s : Service U) (programs : Nat → List Call) (schedule : List Nat) :
    let calls := interleave programs schedule
    let lone := s.fast.serve (fastRequests calls)
    let draws := (drawers calls).length
    lone.1.length = draws ∧ (s.run calls).2.fast = lone.2 ∧
      (DealtOut lone.1 (turns calls) fun thread =>
        drawn (programs thread) (ofThread thread (s.run calls).1)) ∧
      ((∀ event ∈ calls, ∀ seed, event.2 ≠ .seedFast seed) →
        lone = (s.fast.outputs draws, s.fast.advance draws)) := by
  intro calls lone draws
  have hlength : lone.1.length = draws :=
    (Xorshift128.length_serve _).trans (count_draw_fastRequests calls)
  refine ⟨hlength, fast_run_eq_serve s calls, ?_, fun hseeds => ?_⟩
  · refine
      { increasing := fun thread => List.pairwise_lt_range.filter _
        covered := fun i => ?_
        disjoint := fun i thread other hi hi' => ?_
        received_eq := fun thread => ?_ }
    · simp only [mem_turns_iff, hlength]
      exact ⟨fun hi => ⟨_, List.getElem?_eq_getElem hi⟩, fun ⟨_, hi⟩ =>
        (List.getElem?_eq_some_iff.1 hi).1⟩
    · rw [mem_turns_iff] at hi hi'
      exact Option.some.inj (hi.symm.trans hi')
    · rw [drawn_ofThread_run]
      exact map_ofThread_zip (drawers calls) lone.1 hlength
  · show s.fast.serve (fastRequests calls) = _
    rw [fastRequests_eq_replicate hseeds, Xorshift128.serve_replicate_draw]

/-- Two threads draw, in between with an interval that has no numbers, and a third one asks for
other numbers. -/
theorem dealtOut_run_three :
    let s : Service .lowest := new () ()
    let programs : Nat → List Call := fun thread =>
      [[.nextFast, .nextFast], [.range 9 5, .nextFast], [.nextUniform32, .rangeTo 3]].getD thread []
    let calls := interleave programs [1, 0, 2, 1, 2, 0, 0]
    (∀ event ∈ calls, ∀ seed, event.2 ≠ .seedFast seed) ∧
      (drawers calls).length = 3 ∧ turns calls 0 = [0, 2] ∧ turns calls 1 = [1] ∧
      (s.run calls).2.fast = Xorshift128.initial.advance 3 ∧
      drawn (programs 0) (ofThread 0 (s.run calls).1) = [3656013425, 3611983174] ∧
      drawn (programs 1) (ofThread 1 (s.run calls).1) = [504890836] := by
  intro s programs calls
  have hcalls : calls = [(1, .range 9 5), (0, .nextFast), (2, .nextUniform32), (1, .nextFast),
      (2, .rangeTo 3), (0, .nextFast)] := by decide
  have hseeds : ∀ event ∈ calls, ∀ seed, event.2 ≠ .seedFast seed := by
    rw [hcalls]
    simp
  obtain ⟨-, hfast, hdealt, hnoseeds⟩ := dealtOut_run s programs [1, 0, 2, 1, 2, 0, 0]
  have hdraws : (drawers calls).length = 3 := by rw [hcalls]; rfl
  have hturns : turns calls 0 = [0, 2] ∧ turns calls 1 = [1] := by rw [hcalls]; decide
  have hlone : s.fast.serve (fastRequests calls) =
      (Xorshift128.initial.outputs 3, Xorshift128.initial.advance 3) :=
    hdraws ▸ hnoseeds hseeds
  have hsome := List.map_injective_iff.2 fun (a b : UInt32) (h : some a = some b) =>
    Option.some.inj h
  refine ⟨hseeds, hdraws, hturns.1, hturns.2, hfast.trans (congrArg Prod.snd hlone), ?_, ?_⟩
  · apply hsome
    rw [hdealt.received_eq, hturns.1, hlone]
    decide
  · apply hsome
    rw [hdealt.received_eq, hturns.2, hlone]
    decide

end Service

end BlockStream
