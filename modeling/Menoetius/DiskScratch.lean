import Menoetius.DiskFile

/-
This file follows the scratch file through a logged write and through its recovery.
-/

namespace Menoetius
open FileImage LittleEndian

def versionBytes : List UInt8 := bytesOf 8 version

def fullBytes (count : Nat) : List UInt8 := List.replicate count 0xFF

theorem invalidHeader_eq : scratchHeader invalidOffset invalidOffset = fullBytes 16 := by decide

@[simp] theorem fullBytes_length (count : Nat) : (fullBytes count).length = count := by
  simp [fullBytes]

@[simp] theorem versionBytes_length : versionBytes.length = 8 := rfl

@[simp] theorem scratchHeader_length (first second : Nat) : (scratchHeader first second).length = 16 := by
  simp [scratchHeader]

def recordOffset (rest : List UInt8) : Nat := valueOf (rest.take 8)

def recordChecksum (rest : List UInt8) : Nat := valueOf ((rest.drop 8).take 8)

def recordLength (rest : List UInt8) : Nat := valueOf ((rest.drop 16).take 8)

/-- The record that recovery replays, from the bytes behind the version. -/
def scratchRecord (rest : List UInt8) : Option (Nat × List UInt8) :=
  if 24 + recordLength rest ≤ rest.length ∧ recordOffset rest ≠ invalidOffset ∧
      recordChecksum rest = diskStorageGetChecksum (recordOffset rest) then
    some (recordOffset rest, (rest.drop 24).take (recordLength rest))
  else none

/-- A zero in the checksum stands only behind a full byte of the offset. -/
def HeaderSafe (rest : List UInt8) : Prop :=
  ∀ place < 8, rest[8 + place]? = some 0 → rest[place]? = some 0xFF

/-- The bytes behind the version after the first bytes of an invalidation. -/
def tear (count : Nat) (rest : List UInt8) : List UInt8 := fullBytes count ++ rest.drop count

theorem tear_getElem? (count : Nat) (rest : List UInt8) (place : Nat) :
    (tear count rest)[place]? = if place < count then some 0xFF else rest[place]? := by
  rw [tear, List.getElem?_append, fullBytes_length]
  by_cases low : place < count
  · rw [if_pos low, if_pos low, fullBytes, List.getElem?_replicate, if_pos low]
  · rw [if_neg low, if_neg low, List.getElem?_drop]
    congr 1
    omega

theorem HeaderSafe.tear {rest : List UInt8} (safe : HeaderSafe rest) (count : Nat) :
    HeaderSafe (tear count rest) := by
  intro place inside zero
  rw [tear_getElem?] at zero ⊢
  by_cases high : 8 + place < count
  · rw [if_pos high] at zero
    cases zero
  · rw [if_neg high] at zero
    split
    · rfl
    · exact safe place inside zero

theorem getChecksum_add (offset : Nat) (fits : offset < 2 ^ 64) :
    diskStorageGetChecksum offset + offset + 1 = 2 ^ 64 := by
  rw [diskStorageGetChecksum, BitVec.toNat_not, BitVec.toNat_ofNat, Nat.mod_eq_of_lt fits]
  omega

/-- An accepted checksum is the complement of the offset, byte by byte. -/
theorem scratchRecord_complement {rest : List UInt8} {record : Nat × List UInt8}
    (found : scratchRecord rest = some record) (place : Nat) (inside : place < 8) :
    ∃ byte, rest[place]? = some byte ∧ rest[8 + place]? = some (~~~ byte) := by
  unfold scratchRecord at found
  split at found
  · rename_i checks
    obtain ⟨length, _, checksum⟩ := checks
    unfold recordChecksum recordOffset at checksum
    have low : (rest.take 8).length = 8 := by rw [List.length_take]; omega
    have high : ((rest.drop 8).take 8).length = 8 := by rw [List.length_take, List.length_drop]; omega
    have small := valueOf_lt (rest.take 8)
    have flipped := valueOf_complement (rest.take 8)
    rw [low] at small flipped
    have sum := getChecksum_add (valueOf (rest.take 8)) (by omega)
    have same : (rest.drop 8).take 8 = (rest.take 8).map fun byte => ~~~ byte := by
      apply valueOf_inj
      · rw [high, List.length_map, low]
      · omega
    have present : place < rest.length := by omega
    refine ⟨rest[place], List.getElem?_eq_getElem present, ?_⟩
    have entry := congrArg (fun bytes => bytes[place]?) same
    simp only [List.getElem?_map] at entry
    rw [List.getElem?_take_of_lt inside, List.getElem?_take_of_lt inside, List.getElem?_drop,
      List.getElem?_eq_getElem present] at entry
    exact entry
  · cases found

/-- An offset of full bytes is no record. -/
theorem scratchRecord_full {rest : List UInt8} (full : rest.take 8 = fullBytes 8) :
    scratchRecord rest = none := by
  unfold scratchRecord
  rw [if_neg]
  intro checks
  have invalid : valueOf (fullBytes 8) = invalidOffset := by decide
  apply checks.2.1
  rw [recordOffset, full, invalid]

/-- Overwriting the header with full bytes never makes a new record. -/
theorem tear_of_record {rest : List UInt8} {record : Nat × List UInt8} (safe : HeaderSafe rest)
    (count : Nat) (found : scratchRecord (tear count rest) = some record) : tear count rest = rest := by
  by_cases wide : 8 ≤ count
  · have full : (tear count rest).take 8 = fullBytes 8 := by
      rw [tear, List.take_append_of_le_length (by rw [fullBytes_length]; exact wide), fullBytes,
        List.take_replicate, Nat.min_eq_left wide]
      rfl
    rw [scratchRecord_full full] at found
    cases found
  apply List.ext_getElem?
  intro place
  rw [tear_getElem?]
  split
  · rename_i low
    obtain ⟨byte, first, second⟩ := scratchRecord_complement found place (by omega)
    rw [tear_getElem?, if_pos low] at first
    rw [tear_getElem?, if_neg (by omega)] at second
    obtain rfl : (0xFF : UInt8) = byte := Option.some.inj first
    exact (safe place (by omega) second).symm
  · rfl

/-- The length and the data of a record, over what the scratch file held there before. -/
def recordTail (buf rest : List UInt8) : List UInt8 :=
  bytesOf 8 buf.length ++ (buf ++ rest.drop (24 + buf.length))

/-- A record whose header is written up to this byte. -/
def tornRecord (count offset : Nat) (buf rest : List UInt8) : List UInt8 :=
  (scratchHeader offset (diskStorageGetChecksum offset)).take count ++ (fullBytes (16 - count) ++
    recordTail buf rest)

theorem bytesOf_getChecksum (offset : Nat) (fits : offset < 2 ^ 64) :
    bytesOf 8 (diskStorageGetChecksum offset) = (bytesOf 8 offset).map fun byte => ~~~ byte := by
  have sum := getChecksum_add offset fits
  have flipped := valueOf_complement (bytesOf 8 offset)
  rw [bytesOf_length, valueOf_bytesOf_of_lt 8 offset (by omega)] at flipped
  apply valueOf_inj
  · simp
  · rw [valueOf_bytesOf_of_lt _ _ (by omega)]
    omega

theorem tornRecord_getElem? (count offset : Nat) (buf rest : List UInt8) (place : Nat)
    (short : count ≤ 16) (inside : place < 16) :
    (tornRecord count offset buf rest)[place]? =
      if place < count then (scratchHeader offset (diskStorageGetChecksum offset))[place]?
      else some 0xFF := by
  have length : ((scratchHeader offset (diskStorageGetChecksum offset)).take count).length = count := by
    rw [List.length_take, scratchHeader_length, Nat.min_eq_left short]
  rw [tornRecord, List.getElem?_append, length]
  by_cases low : place < count
  · rw [if_pos low, if_pos low, List.getElem?_take_of_lt low]
  · rw [if_neg low, if_neg low, List.getElem?_append_left (by rw [fullBytes_length]; omega), fullBytes,
      List.getElem?_replicate, if_pos (by omega)]

theorem headerSafe_tornRecord (count offset : Nat) (buf rest : List UInt8) (short : count ≤ 16)
    (fits : offset < 2 ^ 64) : HeaderSafe (tornRecord count offset buf rest) := by
  intro place inside zero
  rw [tornRecord_getElem? _ _ _ _ _ short (by omega)] at zero ⊢
  by_cases high : 8 + place < count
  · rw [if_pos high, scratchHeader, List.getElem?_append_right (by simp), bytesOf_length,
      Nat.add_sub_cancel_left, bytesOf_getChecksum offset fits, List.getElem?_map] at zero
    rw [if_pos (by omega), scratchHeader, List.getElem?_append_left (by simpa using inside)]
    obtain ⟨byte, found, flipped⟩ := Option.map_eq_some_iff.mp zero
    rw [found]
    have back : byte = ~~~ (0 : UInt8) := by rw [← flipped, UInt8.not_not]
    rw [back]
    rfl
  · rw [if_neg high] at zero
    cases zero

theorem tornRecord_length (count offset : Nat) (buf rest : List UInt8) (short : count ≤ 16) :
    24 + buf.length ≤ (tornRecord count offset buf rest).length := by
  simp only [tornRecord, recordTail, List.length_append, List.length_take, scratchHeader_length,
    fullBytes_length, bytesOf_length]
  omega

theorem tornRecord_drop (count offset : Nat) (buf rest : List UInt8) (short : count ≤ 16) :
    (tornRecord count offset buf rest).drop 16 = recordTail buf rest := by
  have length : ((scratchHeader offset (diskStorageGetChecksum offset)).take count ++
      fullBytes (16 - count)).length = 16 := by
    simp only [List.length_append, List.length_take, scratchHeader_length, fullBytes_length]
    omega
  rw [tornRecord, ← List.append_assoc, List.drop_left' length]

theorem recordLength_tornRecord (count offset : Nat) (buf rest : List UInt8) (short : count ≤ 16)
    (fits : buf.length < 2 ^ 64) : recordLength (tornRecord count offset buf rest) = buf.length := by
  rw [recordLength, tornRecord_drop _ _ _ _ short, recordTail, List.take_left' (bytesOf_length _ _),
    valueOf_bytesOf_of_lt _ _ (by omega)]

theorem recordData_tornRecord (count offset : Nat) (buf rest : List UInt8) (short : count ≤ 16)
    (fits : buf.length < 2 ^ 64) :
    ((tornRecord count offset buf rest).drop 24).take
      (recordLength (tornRecord count offset buf rest)) = buf := by
  rw [recordLength_tornRecord _ _ _ _ short fits, show 24 = 16 + 8 from rfl, ← List.drop_drop,
    tornRecord_drop _ _ _ _ short, recordTail, List.drop_left' (bytesOf_length _ _), List.take_left]

theorem recordOffset_tornRecord (count offset : Nat) (buf rest : List UInt8) (long : 8 ≤ count)
    (fits : offset < 2 ^ 64) : recordOffset (tornRecord count offset buf rest) = offset := by
  have low : (scratchHeader offset (diskStorageGetChecksum offset)).take 8 = bytesOf 8 offset := by
    rw [scratchHeader, List.take_left' (bytesOf_length _ _)]
  rw [recordOffset, tornRecord, List.take_append_of_le_length, List.take_take, Nat.min_eq_left long, low,
    valueOf_bytesOf_of_lt _ _ (by omega)]
  rw [List.length_take, scratchHeader_length]
  omega

/-- A torn header is accepted only when it already names the new record. -/
theorem scratchRecord_tornRecord (count offset : Nat) (buf rest : List UInt8) (short : count ≤ 16)
    (fits : offset < 2 ^ 64) (bufFits : buf.length < 2 ^ 64)
    {record : Nat × List UInt8}
    (found : scratchRecord (tornRecord count offset buf rest) = some record) :
    record = (offset, buf) := by
  have complement := scratchRecord_complement found
  have long : 8 ≤ count := by
    by_contra early
    -- the checksum is still full, so the last byte of the offset would have to be zero
    obtain ⟨byte, first, second⟩ := complement 7 (by omega)
    rw [tornRecord_getElem? _ _ _ _ _ short (by omega), if_neg (by omega)] at first second
    obtain rfl : (0xFF : UInt8) = byte := Option.some.inj first
    cases second
  unfold scratchRecord at found
  split at found
  · rw [recordOffset_tornRecord _ _ _ _ long fits, recordData_tornRecord _ _ _ _ short bufFits] at found
    exact (Option.some.inj found).symm
  · cases found

/-- A complete header makes the record. -/
theorem scratchRecord_complete (offset : Nat) (buf rest : List UInt8) (fits : offset < invalidOffset)
    (bufFits : buf.length < 2 ^ 64) :
    scratchRecord (tornRecord 16 offset buf rest) = some (offset, buf) := by
  have small : offset < 2 ^ 64 := lt_trans fits (by decide)
  have sum := getChecksum_add offset small
  have checksum : recordChecksum (tornRecord 16 offset buf rest) = diskStorageGetChecksum offset := by
    have head : (tornRecord 16 offset buf rest) = bytesOf 8 offset ++
        (bytesOf 8 (diskStorageGetChecksum offset) ++ recordTail buf rest) := by
      rw [tornRecord, List.take_of_length_le (by rw [scratchHeader_length]), scratchHeader]
      simp [fullBytes]
    rw [recordChecksum, head, List.drop_left' (bytesOf_length _ _), List.take_left' (bytesOf_length _ _),
      valueOf_bytesOf_of_lt _ _ (by omega)]
  have length := tornRecord_length 16 offset buf rest le_rfl
  rw [scratchRecord, recordOffset_tornRecord _ _ _ _ (by decide) small, checksum,
    recordData_tornRecord _ _ _ _ le_rfl bufFits, recordLength_tornRecord _ _ _ _ le_rfl bufFits]
  rw [if_pos ⟨length, Nat.ne_of_lt fits, rfl⟩]

/-- Recovery leaves this image as it is, also after a torn invalidation. -/
structure ScratchQuiet (main rest : List UInt8) : Prop where
  safe : HeaderSafe rest
  replay : ∀ offset buf, scratchRecord rest = some (offset, buf) →
    offset + buf.length ≤ main.length ∧ writeAt main offset buf = main

theorem ScratchQuiet.tear {main rest : List UInt8} (quiet : ScratchQuiet main rest) (count : Nat) :
    ScratchQuiet main (tear count rest) where
  safe := quiet.safe.tear count
  replay offset buf found := by
    have same := tear_of_record quiet.safe count found
    rw [same] at found
    exact quiet.replay offset buf found

/-- The bytes that the first three writes of `disk_storage_write_scratch` cover. -/
def loggedBytes (buf : List UInt8) : List UInt8 := fullBytes 16 ++ (bytesOf 8 buf.length ++ buf)

def cover (data rest : List UInt8) : List UInt8 := data ++ rest.drop data.length

/-- A process that stops before the new header leaves nothing new to replay. -/
theorem ScratchQuiet.logged {main rest : List UInt8} (quiet : ScratchQuiet main rest)
    (buf : List UInt8) (count : Nat) :
    ScratchQuiet main (cover ((loggedBytes buf).take count) rest) := by
  by_cases early : count ≤ 16
  · have same : cover ((loggedBytes buf).take count) rest = Menoetius.tear count rest := by
      rw [cover, loggedBytes, List.take_append_of_le_length (by simpa using early), fullBytes,
        List.take_replicate, Nat.min_eq_left early, List.length_replicate]
      rfl
    rw [same]
    exact quiet.tear count
  · have head : ∀ place, place < 16 →
        (cover ((loggedBytes buf).take count) rest)[place]? = some 0xFF := by
      intro place inside
      rw [cover, List.getElem?_append_left, List.getElem?_take_of_lt (by omega), loggedBytes,
        List.getElem?_append_left (by simpa using inside), fullBytes, List.getElem?_replicate,
        if_pos inside]
      simp only [loggedBytes, List.length_take, List.length_append, fullBytes_length, bytesOf_length]
      omega
    have full : (cover ((loggedBytes buf).take count) rest).take 8 = fullBytes 8 := by
      apply List.ext_getElem?
      intro place
      by_cases inside : place < 8
      · rw [List.getElem?_take_of_lt inside, head place (by omega), fullBytes, List.getElem?_replicate,
          if_pos inside]
      · rw [List.getElem?_eq_none (by rw [List.length_take]; omega), List.getElem?_eq_none (by simpa using inside)]
    constructor
    · intro place inside _
      exact head place (by omega)
    · intro offset data found
      rw [scratchRecord_full full] at found
      cases found

end Menoetius
