import BlockStream.Proofs.Stream.Layout

/-!
# Streams of data in two parts

Nothing is carried from one block to the next. So a stream is a function of its blocks, and data
that follows whole blocks is compressed as it is by itself.
-/

namespace BlockStream

variable {a b data stream : ByteArray} {level : Int32} {config : Config}

namespace Lz4

/-! ## Streams in closed form -/

def packed (level : Int32) (block : ByteArray) : ByteArray :=
  ⟨(encoded block level).toBytes.toArray⟩

/-- The bytes of the stream that data is compressed to: one record for each block. -/
def streamBytes (data : ByteArray) (level : Int32) : List UInt8 :=
  ((blocks blockSize data).map (packed level)).flatMap recordBytes

theorem streamBytes_append (h : blockSize ∣ a.size) (b : ByteArray) (level : Int32) :
    streamBytes (a ++ b) level = streamBytes a level ++ streamBytes b level := by
  rw [streamBytes, blocks_append b (by decide) h, List.map_append, List.flatMap_append]
  rfl

end Lz4

namespace Codec

theorem toList_of_compress_lz4 (h : (lz4 config).compress data level = .ok stream) :
    stream.data.toList = Lz4.streamBytes data level := by
  obtain ⟨scratch, -, payloads, hpacks, hbytes⟩ := payloads_of_compress h
  have hpayloads : List.Forall₂ (· = ·) payloads
      ((blocks blockSize data).map (Lz4.packed level)) :=
    List.forall₂_map_right_iff.2
      (hpacks.imp fun _ _ hpacked => ext_of_toList (toList_of_packs_lz4 hpacked))
  rw [List.forall₂_eq_eq_eq] at hpayloads
  rw [hbytes, hpayloads, Lz4.streamBytes]

/-- **The stream of data is determined by its blocks**, each of them encoded by itself. -/
theorem exists_compress_eq (config : Config) (level : Int32) (h : data.size ≤ Lz4.maxInput) :
    ∃ stream, (lz4 config).compress data level = .ok stream ∧
      stream.data.toList = Lz4.streamBytes data level := by
  obtain ⟨stream, hstream⟩ := exists_compress_lz4 config level h
  exact ⟨stream, hstream, toList_of_compress_lz4 hstream⟩

theorem compress_lz4_eq (config : Config) (data : ByteArray) (level : Int32) :
    (lz4 config).compress data level = BlockStream.compress data level := by
  by_cases hsize : data.size ≤ Lz4.maxInput
  · obtain ⟨s, hs, hbytes⟩ := exists_compress_eq config level hsize
    obtain ⟨t, ht, hbytes'⟩ := exists_compress_eq .sequential level hsize
    rw [hs, ext_of_toList (hbytes.trans hbytes'.symm)]
    exact ht.symm
  · have hlarge := Nat.not_le.1 hsize
    rw [BlockStream.compress, compress_lz4_of_lt config level hlarge,
      compress_lz4_of_lt .sequential level hlarge]

end Codec

/-- **Compression splits where a block ends.** The stream of whole blocks with more data behind
them is their stream with the stream of that data behind it. -/
theorem compress_append (h : blockSize ∣ a.size) (hsize : a.size + b.size ≤ Lz4.maxInput)
    (level : Int32) :
    ∃ s t, compress a level = .ok s ∧ compress b level = .ok t ∧
      compress (a ++ b) level = .ok (s ++ t) := by
  have ha : a.size ≤ Lz4.maxInput := Nat.le_of_add_right_le hsize
  have hb : b.size ≤ Lz4.maxInput := Nat.le_of_add_left_le hsize
  have hboth : (a ++ b).size ≤ Lz4.maxInput := by rwa [ByteArray.size_append]
  obtain ⟨s, hs, hbytes⟩ := Codec.exists_compress_eq .sequential level ha
  obtain ⟨t, ht, hbytes'⟩ := Codec.exists_compress_eq .sequential level hb
  obtain ⟨stream, hstream, htotal⟩ := Codec.exists_compress_eq .sequential level hboth
  rw [Lz4.streamBytes_append h, ← hbytes, ← hbytes', ← toList_append_data] at htotal
  exact ⟨s, t, hs, ht, ext_of_toList htotal ▸ hstream⟩

theorem compress_append_byte :
    let a := zeros blockSize
    let b : ByteArray := ⟨#[0x62]⟩
    blockSize ∣ a.size ∧ a.size + b.size ≤ Lz4.maxInput ∧
      ∃ s, compress a 1 = .ok s ∧ compress b 1 = .ok ⟨#[2, 0, 0, 0, 0x10, 0x62]⟩ ∧
        compress (a ++ b) 1 = .ok (s ++ ⟨#[2, 0, 0, 0, 0x10, 0x62]⟩) := by
  intro a b
  have hwhole : blockSize ∣ a.size := Dvd.intro 1 (by rw [size_zeros, Nat.mul_one])
  have hsize : a.size + b.size ≤ Lz4.maxInput := by
    rw [size_zeros]
    decide
  have hlast : compress b 1 = .ok ⟨#[2, 0, 0, 0, 0x10, 0x62]⟩ := by decide +kernel
  obtain ⟨s, t, hs, ht, hboth⟩ := compress_append hwhole hsize 1
  cases hlast.symm.trans ht
  exact ⟨hwhole, hsize, s, hs, ht, hboth⟩

end BlockStream
