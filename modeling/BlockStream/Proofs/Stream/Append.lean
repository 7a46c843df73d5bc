import BlockStream.Proofs.Record.Append
import BlockStream.Proofs.Stream.Layout

/-! # Concatenated streams -/

namespace BlockStream

/-- The same failure, `bytes` further behind in a stream and with `count` more records before it. -/
def StreamError.shift (bytes count : Nat) : StreamError → StreamError
  | .bound length => .bound length
  | .compress block source => .compress block source
  | .decompress record offset source => .decompress (record + count) (offset + bytes) source
  | .format source => .format (source.shift bytes)

/-! ## Jobs in turn -/

section InTurn

variable {α ε : Type} {capacity : Nat} {op : α → Outcome capacity}
variable {fail : Nat → α → BlockError → ε} {push : ByteArray → ByteArray → ByteArray}

theorem inTurn_append (number : Nat) (jobs jobs' : List α) (out : ByteArray) :
    inTurn op fail push number (jobs ++ jobs') out =
      inTurn op fail push number jobs out >>= inTurn op fail push (number + jobs.length) jobs' := by
  induction jobs generalizing number out with
  | nil => rfl
  | cons job jobs ih =>
    rw [List.cons_append]
    cases h : (op job).nonemptyBytes with
    | error e =>
      rw [inTurn_cons_of_error h, inTurn_cons_of_error h]
      rfl
    | ok bytes =>
      rw [inTurn_cons_of_ok h, inTurn_cons_of_ok h, ih, List.length_cons, Nat.add_assoc,
        Nat.add_comm 1]

theorem inTurn_map {move : α → α} {moveError : ε → ε} {grow : ByteArray → ByteArray}
    (hop : ∀ job, op (move job) = op job)
    (hfail : ∀ number number' job e, fail number (move job) e = moveError (fail number' job e))
    (hpush : ∀ out bytes, push (grow out) bytes = grow (push out bytes))
    (number number' : Nat) (jobs : List α) (out : ByteArray) :
    inTurn op fail push number (jobs.map move) (grow out) =
      ((inTurn op fail push number' jobs out).map grow).mapError moveError := by
  induction jobs generalizing number number' out with
  | nil => rfl
  | cons job jobs ih =>
    rw [List.map_cons]
    cases h : (op job).nonemptyBytes with
    | error e =>
      rw [inTurn_cons_of_error h, inTurn_cons_of_error ((hop job).symm ▸ h), hfail _ number']
      rfl
    | ok bytes =>
      rw [inTurn_cons_of_ok h, inTurn_cons_of_ok ((hop job).symm ▸ h), hpush, ih]

end InTurn

namespace Codec

variable {c : Codec} {a b x : ByteArray} {max : Nat}

theorem inTurn_shift (bytes count number number' : Nat) (records : List Record)
    (x out : ByteArray) :
    inTurn c.unpacked (fun _ record => StreamError.decompress record.index record.offset) (· ++ ·)
        number (records.map (Record.shift bytes count)) (x ++ out) =
      ((inTurn c.unpacked (fun _ record => .decompress record.index record.offset) (· ++ ·)
        number' records out).map (x ++ ·)).mapError (StreamError.shift bytes count) := by
  apply inTurn_map
  · exact fun _ => rfl
  · exact fun _ _ _ _ => rfl
  · exact fun _ _ => ByteArray.append_assoc

theorem bind_close_shift {bytes count : Nat} {walk walk' : Reader.Walk}
    (h : walk'.violation = walk.violation.map (FormatError.shift bytes))
    (result : Except StreamError ByteArray) :
    ((result.map (x ++ ·)).mapError (StreamError.shift bytes count) >>= close walk') =
      ((result >>= close walk).map (x ++ ·)).mapError (StreamError.shift bytes count) := by
  cases result with
  | error e => rfl
  | ok out =>
    simp only [Except.map, Except.mapError, ok_bind, close, h]
    cases walk.violation <;> rfl

/-- **Two streams.** If the first can be decompressed, then it has a number of records, and what
becomes of both together is what becomes of the second, with the bytes of the first before its
bytes, with its records counted on from those of the first, and with its failures moved. -/
theorem decompress_append (h : c.compressor.DecompressesStably) (ha : c.decompress a = .ok x)
    (b : ByteArray) :
    ∃ count, c.recordCount a = .ok count ∧
      c.decompress (a ++ b) =
        ((c.decompress b).map (x ++ ·)).mapError (StreamError.shift a.size count) ∧
      c.recordCount (a ++ b) =
        ((c.recordCount b).map (count + ·)).mapError (StreamError.shift a.size count) := by
  cases hmax : c.maxRecordLength with
  | error e =>
    rw [decompress, records, hmax, Except.map, error_bind] at ha
    cases ha
  | ok max =>
    rw [decompress_eq_inTurn h hmax, bind_close_eq_ok_iff] at ha
    obtain ⟨hviolation, hx⟩ := ha
    obtain ⟨hrecords, hrest⟩ := Reader.walk_append hviolation b
    refine ⟨_, by rw [recordCount_eq hmax, hviolation], ?_, ?_⟩
    · rw [decompress_eq_inTurn h hmax, decompress_eq_inTurn h hmax, hrecords, inTurn_append, hx,
        ok_bind, ← bind_close_shift hrest, ← inTurn_shift _ _ _ 0, ByteArray.append_empty]
    · have hcount := congrArg List.length hrecords
      rw [List.length_append, List.length_map] at hcount
      rw [recordCount_eq hmax, recordCount_eq hmax, hrest]
      cases (Reader.ofStream b max).walk.violation with
      | some e => rfl
      | none => exact congrArg Except.ok hcount

/-- A record that decodes, in front of one that does not, and in front of a cut header. -/
theorem decompress_append_malformed :
    let a : ByteArray := ⟨#[2, 0, 0, 0, 0x10, 0x62]⟩
    let b : ByteArray := ⟨#[4, 0, 0, 0, 0x11, 0x61, 9, 0]⟩
    let b' : ByteArray := ⟨#[9, 0]⟩
    lz4.decompress a = .ok ⟨#[0x62]⟩ ∧
      lz4.decompress (a ++ b) = .error (.decompress 1 6 .malformedInput) ∧
      lz4.recordCount (a ++ b) = .ok 2 ∧
      lz4.decompress (a ++ b') = .error (.format (.truncatedHeader 6 2)) := by
  intro a b b'
  have hstream : lz4.compress ⟨#[0x62]⟩ 1 = .ok a := by decide +kernel
  have ha : lz4.decompress a = .ok ⟨#[0x62]⟩ := decompress_of_compress_lz4 hstream
  have hb : lz4.decompress b = .error (.decompress 0 0 .malformedInput) := by decide +kernel
  have hcount : lz4.recordCount b = .ok 1 := by decide +kernel
  have hb' : lz4.decompress b' = .error (.format (.truncatedHeader 0 2)) := by decide +kernel
  have hone : lz4.recordCount a = .ok 1 := by decide +kernel
  obtain ⟨count, hcount_a, hdecompress, hrecords⟩ := decompress_append stable_lz4.decompress ha b
  obtain ⟨count', hcount_a', hdecompress', -⟩ := decompress_append stable_lz4.decompress ha b'
  cases hone.symm.trans hcount_a
  cases hone.symm.trans hcount_a'
  rw [hb] at hdecompress
  rw [hcount] at hrecords
  rw [hb'] at hdecompress'
  exact ⟨ha, hdecompress, hrecords, hdecompress'⟩

end Codec

end BlockStream
