import Menoetius.TscRoundTrip

/-
This file reads a block back from its bytes, as `storage_get` and `storage_load` do.
-/

namespace Menoetius
open BitField LittleEndian

/-- Words that follow each other in memory are read back, and the bytes behind them are read as
further words. -/
theorem wordsOfBytes_flatMap (words : List Word) (rest : List UInt8) (count : Nat)
    (enough : words.length ≤ count) :
    wordsOfBytes count (words.flatMap (fun word => bytesOf 8 word.toNat) ++ rest) =
      words ++ wordsOfBytes (count - words.length) rest := by
  induction words generalizing count with
  | nil => simp
  | cons word words ih =>
      rw [List.length_cons] at enough
      obtain ⟨count, rfl⟩ : ∃ less, count = less + 1 := ⟨count - 1, by omega⟩
      have value : BitVec.ofNat 64 (valueOf (bytesOf 8 word.toNat)) = word := by
        rw [valueOf_bytesOf_of_lt 8 word.toNat word.isLt, BitVec.ofNat_toNat, BitVec.setWidth_eq]
      rw [List.flatMap_cons, List.append_assoc, wordsOfBytes, List.take_left' (bytesOf_length _ _),
        List.drop_left' (bytesOf_length _ _), value, ih count (by omega), List.length_cons,
        Nat.add_sub_add_right]
      rfl

theorem flatMap_bytesOf_length (words : List Word) :
    (words.flatMap fun word => bytesOf 8 word.toNat).length = 8 * words.length := by
  induction words with
  | nil => rfl
  | cons word words ih => rw [List.flatMap_cons, List.length_append, bytesOf_length, ih, List.length_cons]; omega

section
variable {p : TscHeader} {points : List Point}

theorem BlockHolds.toBytes_length (holds : BlockHolds p points) : p.data.toBytes.length = p.dataLen := by
  have large := holds.large
  rw [TscData.toBytes, List.length_append, List.length_append, bytesOf_length, flatMap_bytesOf_length,
    holds.words, holds.rest]
  omega

theorem BlockHolds.bits_length (holds : BlockHolds p points) :
    (coderOf points).bits.length ≤ 64 * p.data.words.length := by
  have fits := holds.fits
  rw [holds.words]
  unfold wordsEnd at fits
  omega

theorem BlockHolds.numPts_lt (holds : BlockHolds p points) : p.data.numPts < 2 ^ 32 := by
  have bits := coderOf_bits_length points
  have inside := holds.bits_length
  have bounded := holds.bounded
  rw [holds.words] at inside
  rw [holds.numPts]
  unfold maxNumValidBits at bounded
  omega

/-- The bytes of a block, with any bytes behind them, hold the same points in a wider buffer. -/
theorem BlockHolds.ofBytes (holds : BlockHolds p points) (n : Nat) (rest : List UInt8)
    (wide : p.dataLen ≤ n) (bounded : n * 8 ≤ maxNumValidBits) (enough : n ≤ p.dataLen + rest.length) :
    BlockHolds { p with data := TscData.ofBytes n (p.data.toBytes ++ rest), dataLen := n } points := by
  have large := holds.large
  have length := holds.toBytes_length
  have front : (p.data.toBytes ++ rest).take 4 = bytesOf 4 p.data.numPts := by
    rw [TscData.toBytes, List.append_assoc, List.append_assoc, List.take_left' (bytesOf_length _ _)]
  have back : (p.data.toBytes ++ rest).drop 4 =
      p.data.words.flatMap (fun word => bytesOf 8 word.toNat) ++ (p.data.rest ++ rest) := by
    rw [TscData.toBytes, List.append_assoc, List.append_assoc, List.drop_left' (bytesOf_length _ _)]
  have words : (TscData.ofBytes n (p.data.toBytes ++ rest)).words =
      p.data.words ++ wordsOfBytes ((n - 4) / 8 - p.data.words.length) (p.data.rest ++ rest) := by
    rw [TscData.ofBytes, back, wordsOfBytes_flatMap]
    rw [holds.words]
    omega
  refine { holds with
    large := lt_of_lt_of_le large wide
    bounded := bounded
    words := wordsOfBytes_length _ _
    rest := ?_
    numPts := ?_
    stored := ?_
    fits := ?_ }
  · simp only [TscData.ofBytes, List.length_take, List.length_drop, List.length_append, length]
    omega
  · simp only [TscData.ofBytes, front]
    rw [valueOf_bytesOf_of_lt 4 _ holds.numPts_lt, holds.numPts]
  · apply bitsAt_of_agree holds.stored
    intro position _ below
    have inside := holds.bits_length
    have index : position / 64 < p.data.words.length := by omega
    dsimp only
    rw [words, bitAt, bitAt, List.getD_eq_getElem?_getD, List.getD_eq_getElem?_getD,
      List.getElem?_append_left index]
  · have fits := holds.fits
    dsimp only
    omega

/-- Iterating over the bytes of a block returns its points. -/
theorem BlockHolds.iterRun_ofBytes (holds : BlockHolds p points) (n : Nat) (rest : List UInt8)
    (wide : p.dataLen ≤ n) (bounded : n * 8 ≤ maxNumValidBits) (enough : n ≤ p.dataLen + rest.length) :
    tscIterRun (TscData.ofBytes n (p.data.toBytes ++ rest)) = (points, .code .tscIterDone) :=
  tscIterRun_points _ points (holds.ofBytes n rest wide bounded enough)

/-- The start time of a block is read from its bytes. -/
theorem BlockHolds.startTime_ofBytes {point : Point} {later : List Point} (holds : BlockHolds p (point :: later))
    (n : Nat) (rest : List UInt8) (wide : p.dataLen ≤ n) (bounded : n * 8 ≤ maxNumValidBits)
    (enough : n ≤ p.dataLen + rest.length) :
    tscStartTime (TscData.ofBytes n (p.data.toBytes ++ rest)) = point.1 :=
  tscStartTime_points _ point later (holds.ofBytes n rest wide bounded enough)

@[simp] theorem tscSerializeHeader_length (p : TscHeader) :
    (tscSerializeHeader p).length = tscHeaderSerializationSize := by
  simp [tscSerializeHeader, tscHeaderSerializationSize]

theorem ofNat_valueOf_bytesOf (word : Word) : BitVec.ofNat 64 (valueOf (bytesOf 8 word.toNat)) = word := by
  rw [valueOf_bytesOf_of_lt 8 word.toNat word.isLt, BitVec.ofNat_toNat, BitVec.setWidth_eq]

/-- The serialized header gives back the state of the codec. -/
theorem tscDeserializeHeader_serialize (holds : BlockHolds p points) (q : TscHeader) (rest : List UInt8) :
    tscDeserializeHeader q (tscSerializeHeader p ++ rest) = { p with data := q.data, dataLen := q.dataLen } := by
  obtain ⟨leading, sigbits⟩ := coderOf_window points
  rw [← holds.lastLeading] at leading sigbits
  rw [← holds.lastSigbits] at sigbits
  have bits : p.numValidBits < 256 ^ 4 := by
    have inside := holds.bits_length
    have bounded := holds.bounded
    rw [holds.words, ← holds.numValidBits] at inside
    unfold maxNumValidBits at bounded
    omega
  -- the fields follow each other, so each drop leaves the next one in front
  have record : tscSerializeHeader p ++ rest = bytesOf 8 p.lastTimestamp.toNat ++
      (bytesOf 8 p.lastTimestampDelta.toNat ++ (bytesOf 8 p.prevValue.toNat ++ (bytesOf 4 p.numValidBits ++
        (bytesOf 1 p.lastLeading ++ (bytesOf 1 p.lastSigbits ++ rest))))) := by
    simp only [tscSerializeHeader, List.append_assoc]
  have next (skip size value : Nat) (back : List UInt8)
      (front : (tscSerializeHeader p ++ rest).drop skip = bytesOf size value ++ back) :
      ((tscSerializeHeader p ++ rest).drop skip).take size = bytesOf size value ∧
        (tscSerializeHeader p ++ rest).drop (skip + size) = back := by
    rw [← List.drop_drop, front, List.take_left' (bytesOf_length _ _), List.drop_left' (bytesOf_length _ _)]
    exact ⟨rfl, rfl⟩
  obtain ⟨time, rest1⟩ := next 0 8 _ _ record
  obtain ⟨delta, rest2⟩ := next 8 8 _ _ rest1
  obtain ⟨value, rest3⟩ := next 16 8 _ _ rest2
  obtain ⟨count, rest4⟩ := next 24 4 _ _ rest3
  obtain ⟨lead, rest5⟩ := next 28 1 _ _ rest4
  obtain ⟨sig, _⟩ := next 29 1 _ _ rest5
  rw [List.drop_zero] at time
  unfold tscDeserializeHeader
  rw [time, delta, value, count, lead, sig, ofNat_valueOf_bytesOf, ofNat_valueOf_bytesOf,
    ofNat_valueOf_bytesOf, valueOf_bytesOf_of_lt 4 _ bits, valueOf_bytesOf_of_lt 1 _ (by omega),
    valueOf_bytesOf_of_lt 1 _ (by omega)]

/-- Loading an active block restores the state of the codec. -/
theorem tscLoadBlock_run (holds : BlockHolds p points) (q : TscHeader) (same : q.dataLen = p.dataLen)
    (rest padding : List UInt8) :
    ∃ after, tscLoadBlock q (tscSerializeHeader p ++ rest) (p.data.toBytes ++ padding) = .ok after ∧
      BlockHolds after points ∧ after.dataLen = p.dataLen := by
  have length := holds.toBytes_length
  have whole := holds.ofBytes p.dataLen padding le_rfl holds.bounded (by omega)
  refine ⟨_, ?_, whole, rfl⟩
  unfold tscLoadBlock
  rw [tscDeserializeHeader_serialize holds]
  have fits : (tscClear q).dataLen ≤ (p.data.toBytes ++ padding).length := by
    rw [List.length_append, length, tscClear, same]
    omega
  simp only [if_pos fits]
  simp only [tscClear, same]

end

end Menoetius
