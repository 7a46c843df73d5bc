import BlockStream.Proofs.Lz4.Maximal
import BlockStream.Proofs.Lz4.Probing
import BlockStream.Proofs.Lz4.Untouched

/-!
# Equal bytes

The search has its first hit at the second byte, since a table without entries proposes the start
of the block, and the match goes on to the last literals. Behind it there is no room for another.
-/

namespace BlockStream.Lz4

variable {b : UInt8} {n : Nat}

/-! ## Comparisons -/

/-- The byte `b`, `n` times. -/
def constant (b : UInt8) (n : Nat) : ByteArray := ⟨Array.replicate n b⟩

@[simp] theorem size_constant (b : UInt8) (n : Nat) : (constant b n).size = n :=
  Array.size_replicate

theorem byteAt_constant {i : Nat} (h : i < n) : byteAt (constant b n) i = b := by
  rw [byteAt_of_lt (by rwa [size_constant])]
  exact Array.getElem_replicate _

theorem word32_constant {i j : Nat} (hi : i + 4 ≤ n) (hj : j + 4 ≤ n) :
    word32 (constant b n) i = word32 (constant b n) j := by
  rw [word32_eq_iff]
  intro k hk
  rw [byteAt_constant (by omega), byteAt_constant (by omega)]

/-- **Among equal bytes, only the limit stops a comparison.** -/
theorem commonEnd_constant {limit pos candidate : Nat} (hle : candidate ≤ pos)
    (hpos : pos ≤ limit) (hlimit : limit ≤ n) :
    commonEnd (constant b n) limit pos candidate = limit := by
  rcases commonEnd_eq_or_ne hle hpos with hend | hne
  · exact hend
  · have hend := commonEnd_le (constant b n) candidate hpos
    by_contra hlt
    apply hne
    rw [byteAt_constant (by omega), byteAt_constant (by omega)]

/-! ## The search -/

theorem Table.lookup_empty (word : UInt32) : empty.lookup word = 0 :=
  Nat.lt_one_iff.1 (below_empty _)

namespace Search

theorem candidate?_constant (hmin : minInput ≤ n) :
    candidate? (constant b n) Table.empty 1 = some 0 := by
  unfold minInput matchMargin at hmin
  rw [candidate?_eq_some_iff]
  exact ⟨Table.lookup_empty _, Nat.one_pos, by decide, word32_constant (by omega) (by omega)⟩

theorem extend_constant (hmin : minInput ≤ n) :
    extend (constant b n) 0 1 0 = ⟨1, n - 6, 1⟩ := by
  unfold minInput matchMargin at hmin
  have hend : commonEnd (constant b n) (n - lastLiterals) (1 + minMatch) (0 + minMatch) =
      n - lastLiterals := by
    apply commonEnd_constant <;> simp only [minMatch, lastLiterals] <;> omega
  show Match.mk 1 (commonEnd _ ((constant b n).size - lastLiterals) _ _ - 1) 1 = _
  rw [size_constant, hend, Nat.sub_sub]
  rfl

/-- **A search among equal bytes finds one match**, from the second byte to the last literals. -/
theorem rest_start_constant (b : UInt8) (hmin : minInput ≤ n) (a : Acceleration) :
    start.rest (constant b n) a = [⟨1, n - 6, 1⟩] := by
  have hroom : ¬ (constant b n).size < start.pos + a.stride start.misses + (matchMargin - 1) := by
    rw [size_constant]
    exact Nat.not_lt.2 hmin
  rw [rest_of_hit (step_of_candidate hroom (candidate?_constant hmin)),
    show extend (constant b n) start.anchor start.pos 0 = _ from extend_constant hmin]
  congr 1
  apply rest_of_done
  apply step_of_end
  unfold minInput matchMargin at hmin
  show (constant b n).size < 1 + (n - 6) + 1 + 11
  rw [size_constant]
  omega

end Search

/-! ## The block -/

theorem bytesFrom_constant (b : UInt8) (n pos : Nat) :
    bytesFrom (constant b n) pos = List.replicate (n - pos) b := by
  rw [bytesFrom, constant, Array.toList_replicate, List.drop_replicate]

/-- **The block of equal bytes**: one literal, one match that repeats it, and the last literals. -/
theorem encoded_constant (b : UInt8) (hmin : minInput ≤ n) (level : Int32) :
    encoded (constant b n) level = ⟨[⟨[b], 1, n - 6⟩], List.replicate 5 b, 0⟩ := by
  have hfound : (findMatches (constant b n) (.ofLevel level)).toList = [⟨1, n - 6, 1⟩] :=
    Search.rest_start_constant b hmin _
  unfold minInput matchMargin at hmin
  have hliteral : (bytesFrom (constant b n) 0).take 1 = [b] := by
    rw [bytesFrom_constant, List.take_replicate, Nat.sub_zero, Nat.min_eq_left (by omega)]
    rfl
  have hlast : bytesFrom (constant b n) (1 + (n - 6)) = List.replicate 5 b := by
    rw [bytesFrom_constant]
    congr 1
    omega
  rw [encoded, hfound]
  show Block.mk [⟨(bytesFrom _ 0).take 1, 1, n - 6⟩] (bytesFrom _ (1 + (n - 6))) 0 = _
  rw [hliteral, hlast]

/-- The bytes of the block of `n` bytes equal to `b`. A match of `n - 6` bytes has a full field in
its token from `n = 25` on. -/
def constantBytes (b : UInt8) (n : Nat) : List UInt8 :=
  [0x10 ||| (min (n - 10) 15).toUInt8, b, 0x01, 0x00] ++
    (if 15 ≤ n - 10 then List.replicate ((n - 25) / 255) 0xFF ++ [((n - 25) % 255).toUInt8]
      else []) ++
    0x50 :: List.replicate 5 b

theorem toBytes_encoded_constant (b : UInt8) (hmin : minInput ≤ n) (level : Int32) :
    (encoded (constant b n) level).toBytes = constantBytes b n := by
  have hexcess : n - 6 - minMatch = n - 10 := Nat.sub_sub ..
  have htoken : token 1 (n - 10) = 0x10 ||| (min (n - 10) 15).toUInt8 := by
    rw [← token_min]
    exact (or_token 1 _ (Nat.min_le_right ..)).symm
  have htail : lengthTail (n - 10) = if 15 ≤ n - 10 then
      List.replicate ((n - 25) / 255) 0xFF ++ [((n - 25) % 255).toUInt8] else [] := by
    by_cases hlong : 15 ≤ n - 10
    · rw [if_pos hlong, lengthTail_of_le hlong, lengthBytes, fieldMax, Nat.sub_sub]
    · rw [if_neg hlong, lengthTail_of_lt (Nat.not_le.1 hlong)]
  have hliteral : literalBytes [b] (n - 10) = [token 1 (n - 10), b] := rfl
  have hreference : referenceBytes 1 (n - 10) = [0x01, 0x00] ++ lengthTail (n - 10) := rfl
  have hlast : literalBytes (List.replicate 5 b) 0 = 0x50 :: List.replicate 5 b := rfl
  rw [encoded_constant b hmin, Block.toBytes, List.flatMap_singleton, Sequence.toBytes, hexcess,
    hliteral, hreference, hlast, constantBytes, ← htoken, ← htail]
  rfl

/-- **What becomes of equal bytes**, at every level: a destination as large as the bound gets these
bytes, and behind them it is as it was. -/
theorem compressInto_constant (b : UInt8) (hmin : minInput ≤ n) (hmax : n ≤ maxInput)
    (level : Int32) :
    ∃ room, bound n = some room ∧ ∀ {capacity : Nat} (dst : Buffer capacity), room ≤ capacity →
      let written := constantBytes b n
      (compressInto (constant b n) level dst).result = .ok written.length ∧
        (compressInto (constant b n) level dst).buffer.toList =
          written ++ dst.toList.drop written.length := by
  refine ⟨_, bound_of_le hmax, fun dst hroom => ?_⟩
  rw [← size_constant b n] at hmax hroom
  have hyields := yields_compressInto_of_bound level hmax dst hroom
  rw [toBytes_encoded_constant b hmin] at hyields
  exact ⟨hyields.1, toList_compressInto hyields⟩

theorem compressInto_constant_letters :
    bound 280 = some 297 ∧
      (compressInto (constant 122 280) (-5) (Buffer.zeros 300)).result = .ok 12 ∧
      (compressInto (constant 122 280) (-5) (Buffer.zeros 300)).buffer.toList =
        [0x1F, 122, 1, 0, 255, 0, 0x50, 122, 122, 122, 122, 122] ++ List.replicate 288 0 ∧
      bound 13 = some 29 ∧ (compressInto (constant 97 13) 9 (Buffer.zeros 29)).result = .ok 10 ∧
      (compressInto (constant 97 13) 9 (Buffer.zeros 29)).buffer.toList =
        [0x13, 97, 1, 0, 0x50, 97, 97, 97, 97, 97] ++ List.replicate 19 0 := by
  obtain ⟨room, hbound, hlong⟩ := compressInto_constant 122 (n := 280) (by decide) (by decide) (-5)
  obtain ⟨room', hbound', hshort⟩ := compressInto_constant 97 (n := 13) (by decide) (by decide) 9
  obtain rfl := Option.some.inj hbound
  obtain rfl := Option.some.inj hbound'
  obtain ⟨hresult, hlist⟩ := hlong (Buffer.zeros 300) (by decide)
  obtain ⟨hresult', hlist'⟩ := hshort (Buffer.zeros 29) (by decide)
  rw [hresult, hlist, hresult', hlist']
  decide +kernel

end BlockStream.Lz4
