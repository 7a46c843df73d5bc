import BlockStream.Proofs.Record.Walk
import BlockStream.Proofs.Stream.RoundTrip

/-!
# Streams as their parts

Where old bytes of a scratch buffer do not matter, what a codec does is a list of independent
outcomes, and the first failure among them is the one that it reports.
-/

namespace BlockStream

variable {capacity i : Nat} {e : BlockError}

/-! ## Failures -/

namespace Outcome

/-- The operation is refused, or it succeeds with no bytes at all. -/
def Fails (o : Outcome capacity) (e : BlockError) : Prop :=
  o.result = .error e ∨ o.result = .ok 0 ∧ e = .emptyOutput

def Succeeds (o : Outcome capacity) : Prop := ∃ n, o.result = .ok n ∧ n ≠ 0

theorem nonemptyBytes_eq_error_iff {o : Outcome capacity} :
    o.nonemptyBytes = .error e ↔ o.Fails e := by
  unfold nonemptyBytes Fails
  cases o.result with
  | error e' => simp
  | ok n => cases n <;> simp [eq_comm]

theorem exists_nonemptyBytes_iff {o : Outcome capacity} :
    (∃ bytes, o.nonemptyBytes = .ok bytes) ↔ o.Succeeds := by
  constructor
  · rintro ⟨bytes, h⟩
    obtain ⟨n, hn, hpos, -⟩ := nonemptyBytes_eq_ok_iff.1 h
    exact ⟨n, hn, hpos⟩
  · rintro ⟨n, hn, hpos⟩
    exact ⟨_, nonemptyBytes_eq_ok_iff.2 ⟨n, hn, hpos, rfl⟩⟩

end Outcome

/-- Operation number `i` is the first that fails, and `e` is its failure. -/
def FirstFailure (outcomes : List (Outcome capacity)) (i : Nat) (e : BlockError) : Prop :=
  (∃ o, outcomes[i]? = some o ∧ o.Fails e) ∧ ∀ o ∈ outcomes.take i, o.Succeeds

@[simp] theorem firstFailure_cons_zero {o : Outcome capacity} {os : List (Outcome capacity)} :
    FirstFailure (o :: os) 0 e ↔ o.Fails e := by
  simp [FirstFailure]

@[simp] theorem firstFailure_cons_succ {o : Outcome capacity} {os : List (Outcome capacity)} :
    FirstFailure (o :: os) (i + 1) e ↔ o.Succeeds ∧ FirstFailure os i e := by
  simp only [FirstFailure, List.getElem?_cons_succ, List.take_succ_cons, List.forall_mem_cons]
  tauto

theorem FirstFailure.exists_job {α : Type} {op : α → Outcome capacity} {jobs : List α}
    (h : FirstFailure (jobs.map op) i e) : ∃ job, jobs[i]? = some job := by
  obtain ⟨⟨o, ho, -⟩, -⟩ := h
  rw [List.getElem?_map] at ho
  obtain ⟨job, hjob, -⟩ := Option.map_eq_some_iff.1 ho
  exact ⟨job, hjob⟩

/-! ## Jobs in turn -/

section InTurn

variable {α ε : Type} {op : α → Outcome capacity} {fail : Nat → α → BlockError → ε}
variable {push : ByteArray → ByteArray → ByteArray} {number : Nat} {jobs : List α}
variable {out : ByteArray}

/-- Do numbered jobs one after the other and put their bytes together, up to the first failure. -/
def inTurn (op : α → Outcome capacity) (fail : Nat → α → BlockError → ε)
    (push : ByteArray → ByteArray → ByteArray) :
    (number : Nat) → List α → (out : ByteArray) → Except ε ByteArray
  | _, [], out => .ok out
  | number, job :: jobs, out =>
    match (op job).nonemptyBytes with
    | .error e => .error (fail number job e)
    | .ok bytes => inTurn op fail push (number + 1) jobs (push out bytes)

theorem inTurn_cons_of_error {job : α} (h : (op job).nonemptyBytes = .error e) :
    inTurn op fail push number (job :: jobs) out = .error (fail number job e) := by
  rw [inTurn, h]

theorem inTurn_cons_of_ok {job : α} {bytes : ByteArray}
    (h : (op job).nonemptyBytes = .ok bytes) :
    inTurn op fail push number (job :: jobs) out =
      inTurn op fail push (number + 1) jobs (push out bytes) := by
  rw [inTurn, h]

theorem exists_firstFailure_cons_iff {job : α} {error : ε} :
    (∃ i found e, (job :: jobs)[i]? = some found ∧ FirstFailure ((job :: jobs).map op) i e ∧
        error = fail (number + i) found e) ↔
      (∃ e, (op job).Fails e ∧ error = fail number job e) ∨
        (op job).Succeeds ∧ ∃ i found e, jobs[i]? = some found ∧
          FirstFailure (jobs.map op) i e ∧ error = fail (number + 1 + i) found e := by
  have hnumber (i : Nat) : number + (i + 1) = number + 1 + i := by omega
  constructor
  · rintro ⟨_ | i, found, e, hfound, hfirst, rfl⟩
    · cases hfound
      exact Or.inl ⟨e, firstFailure_cons_zero.1 hfirst, rfl⟩
    · obtain ⟨hsucceeds, hrest⟩ := firstFailure_cons_succ.1 hfirst
      exact Or.inr ⟨hsucceeds, i, found, e, hfound, hrest, by rw [hnumber i]⟩
  · rintro (⟨e, hfails, rfl⟩ | ⟨hsucceeds, i, found, e, hfound, hfirst, rfl⟩)
    · exact ⟨0, job, e, rfl, firstFailure_cons_zero.2 hfails, rfl⟩
    · exact ⟨i + 1, found, e, hfound, firstFailure_cons_succ.2 ⟨hsucceeds, hfirst⟩,
        by rw [hnumber i]⟩

/-- **The first failure is reported.** -/
theorem inTurn_eq_error_iff {error : ε} :
    inTurn op fail push number jobs out = .error error ↔
      ∃ i job e, jobs[i]? = some job ∧ FirstFailure (jobs.map op) i e ∧
        error = fail (number + i) job e := by
  induction jobs generalizing number out with
  | nil => simp [inTurn]
  | cons job jobs ih =>
    rw [exists_firstFailure_cons_iff, ← Outcome.exists_nonemptyBytes_iff]
    simp only [← Outcome.nonemptyBytes_eq_error_iff]
    cases h : (op job).nonemptyBytes with
    | error e =>
      rw [inTurn_cons_of_error h]
      simp [eq_comm]
    | ok bytes =>
      rw [inTurn_cons_of_ok h, ih]
      simp

theorem inTurn_eq_ok_iff :
    (∃ bytes, inTurn op fail push number jobs out = .ok bytes) ↔
      ∀ o ∈ jobs.map op, o.Succeeds := by
  induction jobs generalizing number out with
  | nil => simp [inTurn]
  | cons job jobs ih =>
    rw [List.map_cons, List.forall_mem_cons, ← Outcome.exists_nonemptyBytes_iff]
    cases h : (op job).nonemptyBytes with
    | error e =>
      rw [inTurn_cons_of_error h]
      simp
    | ok bytes =>
      rw [inTurn_cons_of_ok h, ih]
      simp

/-- **What is put together** are the parts that each job comes to by itself. -/
theorem inTurn_eq_ok_iff_parts {result : ByteArray} :
    inTurn op fail push number jobs out = .ok result ↔
      ∃ parts, List.Forall₂ (fun job part => (op job).nonemptyBytes = .ok part) jobs parts ∧
        parts.foldl push out = result := by
  induction jobs generalizing number out with
  | nil => simp [inTurn]
  | cons job jobs ih =>
    cases h : (op job).nonemptyBytes with
    | error e =>
      rw [inTurn_cons_of_error h]
      simp [List.forall₂_cons_left_iff, h]
    | ok bytes =>
      rw [inTurn_cons_of_ok h, ih]
      simp [List.forall₂_cons_left_iff, h]

theorem foldlM_mapIdx_eq_inTurn (number : Nat) (jobs : List α) (out : ByteArray) :
    (jobs.mapIdx fun i job => (op job).nonemptyBytes.mapError (fail (number + i) job)).foldlM
      (fun out part => part.map (push out)) out = inTurn op fail push number jobs out := by
  induction jobs generalizing number out with
  | nil => rfl
  | cons job jobs ih =>
    rw [List.mapIdx_cons, List.foldlM_cons]
    cases h : (op job).nonemptyBytes with
    | error e =>
      rw [inTurn_cons_of_error h]
      rfl
    | ok bytes =>
      rw [inTurn_cons_of_ok h, ← ih]
      simp only [Nat.add_assoc, Nat.add_comm 1]
      rfl

end InTurn

namespace Codec

variable {c : Codec} {level : Int32}

/-! ## Compression -/

def packed (c : Codec) (level : Int32) (capacity : Nat) (block : ByteArray) : Outcome capacity :=
  c.compressor.compress block level (Buffer.zeros capacity)

theorem pack_eq (h : c.compressor.Stable) (level : Int32) (scratch : Buffer capacity)
    (index : Nat) (block : ByteArray) :
    (c.pack level scratch index block).1 =
      (c.packed level capacity block).nonemptyBytes.mapError (.compress index) :=
  congrArg (Except.mapError _) (h.compress block level scratch (Buffer.zeros _)).nonemptyBytes_eq

/-- **Blocks are compressed in turn.** -/
theorem packFrom_eq_inTurn (h : c.compressor.Stable) (index : Nat) (bs : List ByteArray)
    (scratch : Buffer capacity) (out : ByteArray) :
    c.packFrom level index bs scratch out =
      inTurn (c.packed level capacity) (fun index _ => .compress index) pushRecord index bs
        out := by
  induction bs generalizing index scratch out with
  | nil => rfl
  | cons block bs ih =>
    have hpack := pack_eq h level scratch index block
    cases hpacked : (c.packed level capacity block).nonemptyBytes with
    | error e =>
      rw [hpacked] at hpack
      rw [inTurn_cons_of_error hpacked, packFrom_cons_of_error hpack]
    | ok payload =>
      rw [hpacked] at hpack
      rw [inTurn_cons_of_ok hpacked, packFrom_cons_of_ok hpack, ih]

theorem appendRecords_eq_foldlM (parts : List (Except StreamError ByteArray)) (out : ByteArray) :
    appendRecords parts out = parts.foldlM (fun out part => part.map (pushRecord out)) out := by
  fun_induction appendRecords parts out with
  | case1 out => rfl
  | case2 e rest out => rfl
  | case3 out payload rest ih => exact ih

/-! ## Decompression -/

def unpacked (c : Codec) (record : Record) : Outcome blockSize :=
  c.compressor.decompress record.payload (Buffer.zeros blockSize)

theorem unpack_eq (h : c.compressor.DecompressesStably) (scratch : Buffer blockSize)
    (record : Record) :
    (c.unpack scratch record).1 =
      (c.unpacked record).nonemptyBytes.mapError (.decompress record.index record.offset) :=
  congrArg (Except.mapError _)
    (h record.payload scratch (Buffer.zeros _)).nonemptyBytes_eq

/-- The result of a walk, once its records are decompressed. -/
def close (walk : Reader.Walk) (out : ByteArray) : Except StreamError ByteArray :=
  match walk.violation with
  | some e => .error (.format e)
  | none => .ok out

/-- **Records are decompressed in turn.** A violation counts after all of them. The number that
the turns count is free, because a record carries its own. -/
theorem unpackFrom_eq_inTurn (h : c.compressor.DecompressesStably) (r : Reader)
    (scratch : Buffer blockSize) (number : Nat) (out : ByteArray) :
    c.unpackFrom r scratch out =
      inTurn c.unpacked (fun _ record => .decompress record.index record.offset) (· ++ ·) number
        r.walk.records.toList out >>= close r.walk := by
  induction r using Reader.next_induction generalizing scratch number out with
  | ended r r' hnext =>
    rw [unpackFrom_of_next_none hnext, Reader.walk_of_end hnext]
    rfl
  | violated r r' e hnext =>
    rw [unpackFrom_of_next_error hnext, Reader.walk_of_error hnext]
    rfl
  | read r r' record hnext ih =>
    have hunpack := unpack_eq h scratch record
    rw [Reader.toList_records_of_record hnext]
    cases hunpacked : (c.unpacked record).nonemptyBytes with
    | error e =>
      rw [hunpacked] at hunpack
      rw [inTurn_cons_of_error hunpacked, unpackFrom_of_unpack_error hnext hunpack]
      rfl
    | ok bytes =>
      rw [hunpacked] at hunpack
      rw [inTurn_cons_of_ok hunpacked, unpackFrom_of_unpack_ok hnext hunpack, ih _ (number + 1),
        Reader.walk_of_record hnext]
      rfl

theorem appendBytes_eq_foldlM (parts : List (Except StreamError ByteArray)) (out : ByteArray) :
    appendBytes parts out = parts.foldlM (fun out part => part.map (out ++ ·)) out := by
  fun_induction appendBytes parts out with
  | case1 out => rfl
  | case2 e rest out => rfl
  | case3 out bytes rest ih => exact ih

end Codec

end BlockStream
