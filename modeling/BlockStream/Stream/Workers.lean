/-!
# Workers

Independent jobs are dealt out to workers that run at the same time. Each keeps one state, such as
a buffer, from job to job, and the results are put back into the order of the jobs.
-/

namespace BlockStream

/-- A way to deal out numbered jobs. -/
structure Assignment where
  /-- The numbers of the jobs of each worker, when there are `count` jobs. -/
  shares : (count : Nat) → List (List Nat)
  /-- Every job is dealt out once. -/
  complete : ∀ count, (shares count).flatten.Perm (List.range count)

namespace Assignment

/-- Cut a list into pieces of `size`, with the rest in one more piece after `pieces` of them. -/
def cut {α : Type} (size : Nat) : (pieces : Nat) → List α → List (List α)
  | 0, jobs => [jobs]
  | pieces + 1, jobs => jobs.take size :: cut size pieces (jobs.drop size)

theorem flatten_cut {α : Type} (size pieces : Nat) (jobs : List α) :
    (cut size pieces jobs).flatten = jobs := by
  induction pieces generalizing jobs with
  | zero => simp [cut]
  | succ pieces ih => simp [cut, ih]

/-- Deal out equal runs of neighbouring jobs to at most `workers` workers. -/
def contiguous (workers : Nat) : Assignment where
  shares count :=
    let used := max 1 (min workers count)
    cut ((count + used - 1) / used) (used - 1) (List.range count)
  complete count := by rw [flatten_cut]

variable {σ α β : Type}

/-- Do one job, with the state that the job before left. Keep its result under its number. -/
def doJob (work : σ → Nat → α → β × σ) (jobs : Array α) (progress : Array (Nat × β) × σ)
    (number : Nat) : Array (Nat × β) × σ :=
  match progress, jobs[number]? with
  | progress, none => progress
  | (results, state), some job =>
    match work state number job with
    | (result, state) => (results.push (number, result), state)

/-- The results of one worker, who starts with a state of its own. -/
def doShare (work : σ → Nat → α → β × σ) (jobs : Array α) (state : σ) (share : List Nat) :
    List (Nat × β) :=
  (share.foldl (doJob work jobs) (#[], state)).1.toList

/-- Do all jobs, each worker at the same time as the others. The results are in the order of the
jobs. -/
def run (A : Assignment) (work : σ → Nat → α → β × σ) (fresh : Unit → σ) (jobs : Array α) :
    List β :=
  let tasks := (A.shares jobs.size).map fun share =>
    Task.spawn fun _ => doShare work jobs (fresh ()) share
  ((tasks.flatMap Task.get).mergeSort fun a b => a.1 ≤ b.1).map (·.2)

end Assignment

end BlockStream
