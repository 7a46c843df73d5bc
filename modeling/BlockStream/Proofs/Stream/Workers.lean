import BlockStream.Stream.Workers
import Mathlib.Data.List.Basic
import Mathlib.Data.List.Induction

/-!
# Jobs done by workers

A worker hands its state from job to job. Where no result depends on this state, neither who does
a job nor what else he does makes a difference.
-/

namespace BlockStream.Assignment

variable {σ α β : Type} {work : σ → Nat → α → β × σ} {result : Nat → α → β}

/-- The result of a job with its number, if there is a job of this number. -/
def numbered (result : Nat → α → β) (jobs : List α) (number : Nat) : Option (Nat × β) :=
  jobs[number]?.map fun job => (number, result number job)

/-! ## One worker -/

theorem toList_doJob (hwork : ∀ state number job, (work state number job).1 = result number job)
    (jobs : Array α) (progress : Array (Nat × β) × σ) (number : Nat) :
    (doJob work jobs progress number).1.toList =
      progress.1.toList ++ (numbered result jobs.toList number).toList := by
  rw [numbered, Array.getElem?_toList]
  unfold doJob
  split
  · next hjob =>
    rw [hjob]
    exact (List.append_nil _).symm
  · next job hjob =>
    rw [hjob, Array.toList_push, hwork]
    rfl

theorem doShare_eq (hwork : ∀ state number job, (work state number job).1 = result number job)
    (jobs : Array α) (state : σ) (share : List Nat) :
    doShare work jobs state share = share.filterMap (numbered result jobs.toList) := by
  suffices h : ∀ progress : Array (Nat × β) × σ,
      (share.foldl (doJob work jobs) progress).1.toList =
        progress.1.toList ++ share.filterMap (numbered result jobs.toList) from h (#[], state)
  rw [List.filterMap_eq_flatMap_toList]
  induction share with
  | nil => exact fun progress => (List.append_nil _).symm
  | cons number share ih =>
    intro progress
    rw [List.foldl_cons, ih, toList_doJob hwork, List.flatMap_cons, List.append_assoc]

/-! ## All workers -/

theorem filterMap_numbered_range (result : Nat → α → β) (jobs : List α) :
    (List.range jobs.length).filterMap (numbered result jobs) =
      jobs.mapIdx fun number job => (number, result number job) := by
  induction jobs using List.reverseRecOn with
  | nil => rfl
  | append_singleton jobs job ih =>
    have hsame : ∀ number ∈ List.range jobs.length,
        numbered result (jobs ++ [job]) number = numbered result jobs number := by
      intro number hnumber
      rw [numbered, numbered, List.getElem?_append_left (List.mem_range.1 hnumber)]
    have hlast : numbered result (jobs ++ [job]) jobs.length =
        some (jobs.length, result jobs.length job) := by
      rw [numbered, List.getElem?_concat_length]
      rfl
    rw [List.length_append, List.length_singleton, List.range_succ, List.filterMap_append,
      List.filterMap_congr hsame, ih, List.mapIdx_concat, List.filterMap_cons, hlast]
    rfl

theorem mergeSort_eq_mapIdx {results : List (Nat × β)} {jobs : List α}
    (h : results.Perm (jobs.mapIdx fun number job => (number, result number job))) :
    results.mergeSort (fun a b => a.1 ≤ b.1) =
      jobs.mapIdx fun number job => (number, result number job) := by
  have hperm := (List.mergeSort_perm results fun a b => a.1 ≤ b.1).trans h
  have hsorted : (results.mergeSort fun a b => a.1 ≤ b.1).Pairwise
      fun a b => decide (a.1 ≤ b.1) = true :=
    List.pairwise_mergeSort
      (fun a b c hab hbc => by simp only [decide_eq_true_eq] at *; omega)
      (fun a b => by simp only [Bool.or_eq_true, decide_eq_true_eq]; omega) results
  refine List.Perm.eq_of_pairwise ?_ hsorted ?_ hperm
  · -- Results of one number are results of one job.
    intro a b ha hb hab hba
    obtain ⟨i, hi, rfl⟩ := List.mem_mapIdx.1 (hperm.mem_iff.1 ha)
    obtain ⟨j, hj, rfl⟩ := List.mem_mapIdx.1 hb
    simp only [decide_eq_true_eq] at hab hba
    obtain rfl := Nat.le_antisymm hab hba
    rfl
  · rw [List.pairwise_iff_getElem]
    intro i j hi hj hij
    simpa using Nat.le_of_lt hij

/-- **Assignments make no difference.** -/
theorem run_eq_mapIdx (A : Assignment)
    (hwork : ∀ state number job, (work state number job).1 = result number job)
    (fresh : Unit → σ) (jobs : Array α) :
    A.run work fresh jobs = jobs.toList.mapIdx result := by
  have hshares : ((A.shares jobs.size).map fun share =>
      Task.spawn fun _ => doShare work jobs (fresh ()) share).flatMap Task.get =
        (A.shares jobs.size).flatten.filterMap (numbered result jobs.toList) := by
    rw [List.flatMap_map, List.filterMap_flatten, ← List.flatMap_def]
    exact List.flatMap_congr fun share _ => doShare_eq hwork jobs (fresh ()) share
  have hperm := (A.complete jobs.size).filterMap (numbered result jobs.toList)
  have hrange : (List.range jobs.size).filterMap (numbered result jobs.toList) = _ :=
    filterMap_numbered_range result jobs.toList
  rw [hrange] at hperm
  simp only [run]
  rw [hshares, mergeSort_eq_mapIdx hperm]
  exact List.ext_getElem? fun i => by simp [List.getElem?_mapIdx, Function.comp_def]

end BlockStream.Assignment
