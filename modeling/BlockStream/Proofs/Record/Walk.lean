import BlockStream.Record.Reader

/-! # Walks over records -/

namespace BlockStream.Reader

variable {r r' : Reader} {e : FormatError} {record : Record} {seen : Array Record} {i : Nat}

/-! ## One item -/

/-- A property of all readers, from the item that a reader reads next. -/
@[elab_as_elim]
theorem next_induction {motive : Reader → Prop}
    (ended : ∀ r r', r.next = (none, r') → motive r)
    (violated : ∀ r r' e, r.next = (some (.error e), r') → motive r)
    (read : ∀ r r' record, r.next = (some (.ok record), r') → motive r' → motive r)
    (r : Reader) : motive r := by
  match h : r.next with
  | (none, r') => exact ended r r' h
  | (some (.error e), r') => exact violated r r' e h
  | (some (.ok record), r') =>
    have := remaining_lt_of_next h
    exact read r r' record h (next_induction ended violated read r')
termination_by r.remaining

theorem index_of_record (h : r.record = .ok record) : record.index = r.index := by
  revert h
  fun_cases Reader.record r with
  | case4 =>
    intro h
    cases h
    rfl
  | _ => nofun

theorem index_of_next (h : r.next = (some (.ok record), r')) :
    record.index = r.index ∧ r'.index = r.index + 1 := by
  revert h
  fun_cases next r with
  | case2 _ record hrecord =>
    intro h
    cases h
    exact ⟨index_of_record hrecord, rfl⟩
  | _ => nofun

theorem walkFrom_of_end (h : r.next = (none, r')) : r.walkFrom seen = ⟨seen, none, r'⟩ := by
  rw [walkFrom]
  split
  · next h' => cases h.symm.trans h'; rfl
  · next h' => cases h.symm.trans h'
  · next h' => cases h.symm.trans h'

theorem walkFrom_of_error (h : r.next = (some (.error e), r')) :
    r.walkFrom seen = ⟨seen, some e, r'⟩ := by
  rw [walkFrom]
  split
  · next h' => cases h.symm.trans h'
  · next h' => cases h.symm.trans h'; rfl
  · next h' => cases h.symm.trans h'

theorem walkFrom_of_record (h : r.next = (some (.ok record), r')) :
    r.walkFrom seen = r'.walkFrom (seen.push record) := by
  rw [walkFrom]
  split
  · next h' => cases h.symm.trans h'
  · next h' => cases h.symm.trans h'
  · next h' => cases h.symm.trans h'; rfl

/-! ## Whole walks -/

theorem walkFrom_append (r : Reader) (before seen : Array Record) :
    r.walkFrom (before ++ seen) =
      { r.walkFrom seen with records := before ++ (r.walkFrom seen).records } := by
  induction r using next_induction generalizing seen with
  | ended r r' h => rw [walkFrom_of_end h, walkFrom_of_end h]
  | violated r r' e h => rw [walkFrom_of_error h, walkFrom_of_error h]
  | read r r' record h ih =>
    rw [walkFrom_of_record h, walkFrom_of_record h, ← Array.append_push, ih]

theorem walk_of_end (h : r.next = (none, r')) : r.walk = ⟨#[], none, r'⟩ := walkFrom_of_end h

theorem walk_of_error (h : r.next = (some (.error e), r')) : r.walk = ⟨#[], some e, r'⟩ :=
  walkFrom_of_error h

/-- **A record that is read comes first.** -/
theorem walk_of_record (h : r.next = (some (.ok record), r')) :
    r.walk = { r'.walk with records := #[record] ++ r'.walk.records } := by
  rw [walk, walkFrom_of_record h]
  exact walkFrom_append r' #[record] #[]

theorem toList_records_of_record (h : r.next = (some (.ok record), r')) :
    r.walk.records.toList = record :: r'.walk.records.toList := by
  rw [walk_of_record h, Array.toList_append]
  rfl

/-- **Records are numbered in order.** -/
theorem index_of_mem_walk (h : r.walk.records.toList[i]? = some record) :
    record.index = r.index + i := by
  induction r using next_induction generalizing i with
  | ended r r' hnext =>
    rw [walk_of_end hnext] at h
    cases h
  | violated r r' e hnext =>
    rw [walk_of_error hnext] at h
    cases h
  | read r r' first hnext ih =>
    obtain ⟨hfirst, hrest⟩ := index_of_next hnext
    rw [toList_records_of_record hnext] at h
    cases i with
    | zero =>
      cases h
      exact hfirst
    | succ i =>
      rw [List.getElem?_cons_succ] at h
      rw [ih h, hrest, Nat.add_assoc, Nat.add_comm 1 i]

theorem index_of_mem_walk_ofStream {stream : ByteArray} {max : Nat}
    (h : (ofStream stream max).walk.records[i]? = some record) : record.index = i := by
  rw [← Array.getElem?_toList] at h
  exact (index_of_mem_walk h).trans (Nat.zero_add i)

end BlockStream.Reader
