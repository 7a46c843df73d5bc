import BlockStream.Proofs.Record.Prefix
import BlockStream.Proofs.Stream.Layout

/-!
# Streams that are cut

The front of a stream is decompressed into the front of its data if it ends where a record ends.
Any other cut is reported, with its place and with what is left there.
-/

namespace BlockStream

def joined (parts : List ByteArray) : ByteArray := parts.foldl (· ++ ·) ByteArray.empty

theorem toList_foldl_append (parts : List ByteArray) (out : ByteArray) :
    (parts.foldl (· ++ ·) out).data.toList =
      out.data.toList ++ parts.flatMap fun part => part.data.toList := by
  induction parts generalizing out with
  | nil => simp
  | cons part parts ih => simp [ih]

theorem joined_take_prefix (parts : List ByteArray) (n : Nat) :
    (joined (parts.take n)).data.toList <+: (joined parts).data.toList := by
  rw [joined, joined, toList_foldl_append, toList_foldl_append, List.prefix_append_right_inj]
  exact (List.take_prefix n parts).flatMap _

namespace Codec

variable {c : Codec} {stream data : ByteArray} {parts : List ByteArray} {max : Nat}

/-- Each record is decompressed into its part, by itself and in a new buffer. -/
def UnpacksTo (c : Codec) (records : List Record) (parts : List ByteArray) : Prop :=
  List.Forall₂ (fun record part => (c.unpacked record).nonemptyBytes = .ok part) records parts

/-- Decompressing a stream and counting its records show a violation of the format. -/
def Reports (c : Codec) (stream : ByteArray) (e : FormatError) : Prop :=
  c.decompress stream = .error (.format e) ∧ c.recordCount stream = .error (.format e)

/-! ## Records that can be decompressed -/

theorem UnpacksTo.length_eq {records : List Record} (h : c.UnpacksTo records parts) :
    records.length = parts.length :=
  List.Forall₂.length_eq h

theorem UnpacksTo.take {records : List Record} (h : c.UnpacksTo records parts) (n : Nat) :
    c.UnpacksTo (records.take n) (parts.take n) :=
  List.forall₂_take n h

theorem decompress_eq_close (h : c.compressor.DecompressesStably)
    (hmax : c.maxRecordLength = .ok max)
    (hparts : c.UnpacksTo (Reader.ofStream stream max).walk.records.toList parts) :
    c.decompress stream = close (Reader.ofStream stream max).walk (joined parts) := by
  rw [decompress_eq_inTurn h hmax, inTurn_eq_ok_iff_parts.2 ⟨parts, hparts, rfl⟩, ok_bind]
  rfl

theorem decompress_of_parts (h : c.compressor.DecompressesStably)
    (hmax : c.maxRecordLength = .ok max)
    (hparts : c.UnpacksTo (Reader.ofStream stream max).walk.records.toList parts)
    (hviolation : (Reader.ofStream stream max).walk.violation = none) :
    c.decompress stream = .ok (joined parts) ∧ c.recordCount stream = .ok parts.length := by
  rw [decompress_eq_close h hmax hparts, recordCount_eq hmax, close, hviolation, ← hparts.length_eq]
  exact ⟨rfl, rfl⟩

theorem reports_of_violation (h : c.compressor.DecompressesStably)
    (hmax : c.maxRecordLength = .ok max)
    (hparts : c.UnpacksTo (Reader.ofStream stream max).walk.records.toList parts) {e : FormatError}
    (hviolation : (Reader.ofStream stream max).walk.violation = some e) : c.Reports stream e := by
  rw [Reports, decompress_eq_close h hmax hparts, recordCount_eq hmax, close, hviolation]
  exact ⟨rfl, rfl⟩

/-- **Every cut is found.** A stream that can be decompressed is a number of records, each of which
comes to a part of its data. However many of its bytes are there: if they end with a whole record,
then they come to the parts of these records, and otherwise what is behind the last whole record is
reported, a header that is cut, or else a payload that is cut. -/
theorem decompress_extract (h : c.compressor.DecompressesStably)
    (hs : c.decompress stream = .ok data) :
    ∃ reader records parts, c.records stream = .ok reader ∧ reader.Finds records none ∧
      c.UnpacksTo records parts ∧ data = joined parts ∧
      ∀ cut ≤ stream.size,
        let front := stream.extract 0 cut
        let count := (Record.whole cut records).length
        let stop := Record.totalLength (Record.whole cut records)
        let available := cut - stop
        Record.whole cut records = records.take count ∧ stop ≤ cut ∧
        (available = 0 → c.decompress front = .ok (joined (parts.take count)) ∧
          c.recordCount front = .ok count ∧
          (joined (parts.take count)).data.toList <+: data.data.toList) ∧
        (0 < available → available < headerSize →
          c.Reports front (.truncatedHeader stop available)) ∧
        (headerSize ≤ available → ∃ record length, records[count]? = some record ∧
          length.toNat = record.payload.size ∧
          c.Reports front (.truncatedPayload stop length (available - headerSize))) := by
  cases hmax : c.maxRecordLength with
  | error e =>
    rw [decompress, records, hmax, Except.map, error_bind] at hs
    cases hs
  | ok max =>
    rw [decompress_eq_inTurn h hmax, bind_close_eq_ok_iff] at hs
    obtain ⟨hviolation, hturns⟩ := hs
    obtain ⟨parts, hparts, rfl⟩ := inTurn_eq_ok_iff_parts.1 hturns
    have hfinds := Reader.finds_walk (Reader.ofStream stream max)
    rw [hviolation] at hfinds
    have hreader : c.records stream = .ok (Reader.ofStream stream max) := by
      rw [records, hmax]
      rfl
    refine ⟨_, _, parts, hreader, hfinds, hparts, rfl, fun cut hcut => ?_⟩
    have hfound := Reader.foundInFront_walk hviolation hcut
    generalize (Reader.ofStream stream max).walk.records.toList = records at hparts hfound
    have hle := hfound.le_cut
    have hfront := UnpacksTo.take hparts (Record.whole cut records).length
    rw [← hfound.records_eq] at hfront
    refine ⟨hfound.whole_eq, hle, fun hend => ?_, fun hpos hshort => ?_, fun hlong => ?_⟩
    · have hnone := hfound.unnoticed (by omega)
      obtain ⟨hdecompress, hcount⟩ := decompress_of_parts h hmax hfront hnone
      rw [← hfront.length_eq, hfound.records_eq, ← hfound.whole_eq] at hcount
      exact ⟨hdecompress, hcount, joined_take_prefix ..⟩
    · obtain ⟨record, -, hplace, -, hsome⟩ := hfound.noticed (by omega)
      have hreports := reports_of_violation h hmax hfront hsome
      simp only [Record.severed, hplace, if_pos hshort] at hreports
      exact hreports
    · have hpos : headerSize = 4 := rfl
      obtain ⟨record, hrecord, hplace, hword, hsome⟩ := hfound.noticed (by omega)
      have hreports := reports_of_violation h hmax hfront hsome
      simp only [Record.severed, hplace, if_neg (Nat.not_lt.2 hlong)] at hreports
      exact ⟨record, _, hrecord, UInt32.toNat_ofNat_of_lt hword, hreports⟩

theorem decompress_extract_two :
    let stream : ByteArray := ⟨#[2, 0, 0, 0, 0x10, 0x62, 3, 0, 0, 0, 0x20, 0x63, 0x64]⟩
    lz4.decompress stream = .ok ⟨#[0x62, 0x63, 0x64]⟩ ∧
      lz4.decompress (stream.extract 0 6) = .ok ⟨#[0x62]⟩ ∧
      lz4.recordCount (stream.extract 0 6) = .ok 1 ∧
      lz4.Reports (stream.extract 0 8) (.truncatedHeader 6 2) ∧
      lz4.Reports (stream.extract 0 12) (.truncatedPayload 6 3 2) := by
  intro stream
  let first : Record := ⟨0, 0, ⟨#[0x10, 0x62]⟩⟩
  let second : Record := ⟨1, 6, ⟨#[0x20, 0x63, 0x64]⟩⟩
  have hmax : lz4.maxRecordLength = .ok 1052704 := by decide +kernel
  have hrecords : (Reader.ofStream stream 1052704).walk.records.toList = [first, second] := by
    decide +kernel
  have hviolation : (Reader.ofStream stream 1052704).walk.violation = none := by decide +kernel
  have hvalid (last : List UInt8) : (Lz4.Block.mk [] last 0).Valid := ⟨trivial, Nat.zero_le _⟩
  have hfirst : (lz4.unpacked first).nonemptyBytes = .ok ⟨#[0x62]⟩ :=
    (Lz4.yields_decompressInto rfl (hvalid [0x62]) _ (by decide)).nonemptyBytes_eq (by decide)
  have hsecond : (lz4.unpacked second).nonemptyBytes = .ok ⟨#[0x63, 0x64]⟩ :=
    (Lz4.yields_decompressInto rfl (hvalid [0x63, 0x64]) _ (by decide)).nonemptyBytes_eq (by decide)
  have hparts : lz4.UnpacksTo (Reader.ofStream stream 1052704).walk.records.toList
      [⟨#[0x62]⟩, ⟨#[0x63, 0x64]⟩] := by
    rw [hrecords]
    exact .cons hfirst (.cons hsecond .nil)
  have hdecompress : lz4.decompress stream = .ok ⟨#[0x62, 0x63, 0x64]⟩ :=
    (decompress_of_parts stable_lz4.decompress hmax hparts hviolation).1
  have hreader : lz4.records stream = .ok (Reader.ofStream stream 1052704) := by
    rw [records, hmax]
    rfl
  have hfinds := Reader.finds_walk (Reader.ofStream stream 1052704)
  rw [hrecords, hviolation] at hfinds
  obtain ⟨reader, records, parts, hreader', hfinds', hdecoded, -, hcuts⟩ :=
    decompress_extract stable_lz4.decompress hdecompress
  cases hreader.symm.trans hreader'
  obtain rfl := hfinds.unique hfinds'
  obtain ⟨part, parts, hpart, -, rfl⟩ := List.forall₂_cons_left_iff.1 hdecoded
  obtain rfl := Except.ok.inj (hfirst.symm.trans hpart)
  obtain ⟨-, -, hwhole, -, -⟩ := hcuts 6 (by decide)
  obtain ⟨-, -, -, hheader, -⟩ := hcuts 8 (by decide)
  obtain ⟨-, -, -, -, hpayload⟩ := hcuts 12 (by decide)
  obtain ⟨hfront, hcount, -⟩ := hwhole (by decide)
  obtain ⟨record, length, hrecord, hlength, hreports⟩ := hpayload (by decide)
  cases hrecord
  obtain rfl : length = 3 := UInt32.toNat_inj.1 hlength
  exact ⟨hdecompress, hfront, hcount, hheader (by decide) (by decide), hreports⟩

end Codec

end BlockStream
