import Menoetius.Bitstream

/-
This file describes what one field access does to the bits of the buffer.
-/

namespace Menoetius
open BitField

/-- A field write replaces the bits of its own range and no others. -/
structure FieldWritten (before after : List Word) (bitIndex numBits : Nat) (value : Word) : Prop where
  length : after.length = before.length
  bits : ∀ position, bitAt after position =
    if bitIndex ≤ position ∧ position < bitIndex + numBits then value.getLsbD (position - bitIndex)
    else bitAt before position

/-- A masked merge takes each bit from one of its two words. -/
theorem merge_getLsbD (old new mask : Word) (index : Nat) (inside : index < 64) :
    ((old &&& ~~~mask) ||| (new &&& mask)).getLsbD index =
      if mask.getLsbD index then new.getLsbD index else old.getLsbD index := by
  simp only [BitVec.getLsbD_or, BitVec.getLsbD_and, BitVec.getLsbD_not, inside, decide_true,
    Bool.true_and]
  cases mask.getLsbD index <;> simp

theorem lowMask_getLsbD (numBits j index : Nat) (width : numBits ≤ 64) (inside : index < 64) :
    (bitMask numBits <<< j).getLsbD index = decide (j ≤ index ∧ index - j < numBits) := by
  rw [BitVec.getLsbD_shiftLeft, bitMask_getLsbD _ _ width, Bool.decide_and, ← decide_not]
  simp [inside]

theorem highMask_getLsbD (numBits j index : Nat) (width : numBits ≤ 64) :
    (bitMask numBits >>> (64 - j)).getLsbD index = decide (64 - j + index < numBits) := by
  rw [BitVec.getLsbD_ushiftRight, bitMask_getLsbD _ _ width]

/-- The first word always receives at least one bit. -/
theorem lowMask_ne_zero (numBits j : Nat) (positive : 0 < numBits) (width : numBits ≤ 64)
    (inside : j < 64) : bitMask numBits <<< j ≠ 0#64 := by
  intro zero
  have bit := lowMask_getLsbD numBits j j width inside
  rw [zero] at bit
  simp [positive] at bit

/-- The second word is touched exactly when the field straddles the boundary. -/
theorem highMask_eq_zero_iff (numBits j : Nat) (width : numBits ≤ 64) :
    bitMask numBits >>> (64 - j) = 0#64 ↔ numBits ≤ 64 - j := by
  constructor
  · intro zero
    have bit := highMask_getLsbD numBits j 0 width
    rw [zero] at bit
    simpa using bit
  · intro small
    apply BitVec.eq_of_getLsbD_eq
    intro index _
    rw [highMask_getLsbD _ _ _ width, BitVec.getLsbD_zero, decide_eq_false_iff_not]
    omega

theorem loadWord_run (buf : List Word) (slot : Nat) (inside : slot < buf.length) :
    loadWord slot buf = .ok (buf.getD slot 0#64) buf := by
  simp [loadWord, inside]

/-- The first word after a store that starts inside it. -/
def mergedLow (buf : List Word) (bitIndex numBits : Nat) (value : Word) : List Word :=
  buf.set (bitIndex / 64)
    ((buf.getD (bitIndex / 64) 0#64 &&& ~~~(bitMask numBits <<< (bitIndex % 64))) |||
      (value <<< (bitIndex % 64) &&& bitMask numBits <<< (bitIndex % 64)))

theorem mergedLow_bitAt (buf : List Word) (bitIndex numBits : Nat) (value : Word)
    (width : numBits ≤ 64) (first : bitIndex / 64 < buf.length) (position : Nat) :
    bitAt (mergedLow buf bitIndex numBits value) position =
      if position / 64 = bitIndex / 64 ∧ bitIndex ≤ position ∧ position < bitIndex + numBits then
        value.getLsbD (position - bitIndex) else bitAt buf position := by
  have inWord : position % 64 < 64 := Nat.mod_lt _ (by decide)
  rw [mergedLow, bitAt_set _ _ _ first]
  by_cases same : position / 64 = bitIndex / 64
  · rw [if_pos same, merge_getLsbD _ _ _ _ inWord, lowMask_getLsbD _ _ _ width inWord]
    by_cases inside : bitIndex ≤ position ∧ position < bitIndex + numBits
    · have above : ¬ position % 64 < bitIndex % 64 := by omega
      rw [if_pos (by simp; omega), if_pos ⟨same, inside⟩, BitVec.getLsbD_shiftLeft,
        show position % 64 - bitIndex % 64 = position - bitIndex by omega]
      simp [inWord, above]
    · rw [if_neg (by simp; omega), if_neg (by simp [inside]), bitAt, same]
  · rw [if_neg same, if_neg (by simp [same])]

/-- The store merges the value into one or two words. -/
theorem bitstreamStore_run (shiftRight : Word → Nat → Word) (buf : List Word)
    (bitIndex numBits : Nat) (value : Word)
    (sound : ∀ count index, count + index < 64 →
      (shiftRight value count).getLsbD index = value.getLsbD (count + index))
    (positive : 0 < numBits) (width : numBits ≤ 64) (room : bitIndex + numBits ≤ 64 * buf.length) :
    ∃ after, bitstreamStore shiftRight bitIndex numBits value buf = .ok (bitIndex + numBits) after ∧
      FieldWritten buf after bitIndex numBits value := by
  have split := Nat.div_add_mod bitIndex 64
  have below : bitIndex % 64 < 64 := Nat.mod_lt _ (by decide)
  have first : bitIndex / 64 < buf.length := by omega
  have firstWord := loadWord_run buf _ first
  by_cases aligned : bitIndex % 64 = 0
  · refine ⟨mergedLow buf bitIndex numBits value, ?_, by simp [mergedLow], ?_⟩
    · simp [bitstreamStore, aligned, firstWord, storeWord, mergedLow]
    · intro position
      rw [mergedLow_bitAt _ _ _ _ width first]
      by_cases inside : bitIndex ≤ position ∧ position < bitIndex + numBits
      · rw [if_pos ⟨by omega, inside⟩, if_pos inside]
      · rw [if_neg (by simp [inside]), if_neg inside]
  · have low := lowMask_ne_zero numBits (bitIndex % 64) positive width below
    by_cases contained : numBits ≤ 64 - bitIndex % 64
    · have high := (highMask_eq_zero_iff numBits (bitIndex % 64) width).mpr contained
      refine ⟨mergedLow buf bitIndex numBits value, ?_, by simp [mergedLow], ?_⟩
      · simp [bitstreamStore, aligned, firstWord, storeWord, low, high, mergedLow]
      · intro position
        rw [mergedLow_bitAt _ _ _ _ width first]
        by_cases inside : bitIndex ≤ position ∧ position < bitIndex + numBits
        · rw [if_pos ⟨by omega, inside⟩, if_pos inside]
        · rw [if_neg (by simp [inside]), if_neg inside]
    · have high := mt (highMask_eq_zero_iff numBits (bitIndex % 64) width).mp contained
      have second : bitIndex / 64 + 1 < buf.length := by omega
      have kept : (mergedLow buf bitIndex numBits value).length = buf.length := by simp [mergedLow]
      have secondWord := loadWord_run (mergedLow buf bitIndex numBits value) (bitIndex / 64 + 1)
        (by rw [kept]; exact second)
      let highWord : Word :=
        ((mergedLow buf bitIndex numBits value).getD (bitIndex / 64 + 1) 0#64 &&&
            ~~~(bitMask numBits >>> (64 - bitIndex % 64))) |||
          (shiftRight value (64 - bitIndex % 64) &&& bitMask numBits >>> (64 - bitIndex % 64))
      refine ⟨(mergedLow buf bitIndex numBits value).set (bitIndex / 64 + 1) highWord, ?_,
        by rw [List.length_set, kept], ?_⟩
      · simp only [bitstreamStore, aligned, if_false, EStateM.bind_apply, require_apply, low,
          ne_eq, not_false_eq_true, if_true, firstWord, storeWord, EStateM.modify_apply,
          high, EStateM.pure_apply]
        rw [show buf.set (bitIndex / 64) _ = mergedLow buf bitIndex numBits value from rfl, secondWord]
      · intro position
        have inWord : position % 64 < 64 := Nat.mod_lt _ (by decide)
        rw [bitAt_set _ _ _ (by rw [kept]; exact second)]
        by_cases next : position / 64 = bitIndex / 64 + 1
        · rw [if_pos next, merge_getLsbD _ _ _ _ inWord, highMask_getLsbD _ _ _ width]
          by_cases inside : 64 - bitIndex % 64 + position % 64 < numBits
          · rw [if_pos (by simpa using inside), if_pos (by omega), sound _ _ (by omega)]
            congr 1
            omega
          · have untouched := mergedLow_bitAt buf bitIndex numBits value width first position
            rw [if_neg (by omega)] at untouched
            rw [if_neg (by simpa using inside), if_neg (by omega), ← untouched, bitAt, next]
        · rw [if_neg next, mergedLow_bitAt _ _ _ _ width first]
          by_cases inside : bitIndex ≤ position ∧ position < bitIndex + numBits
          · rw [if_pos ⟨by omega, inside⟩, if_pos inside]
          · rw [if_neg (by simp [inside]), if_neg inside]

/-- The required size is the end of the field, rounded up to whole words. -/
theorem requiredBufSize_eq (bitIndex numBits : Nat) :
    requiredBufSize bitIndex numBits = 64 * ((bitIndex + numBits + 63) / 64) := by
  simp only [requiredBufSize]
  split <;> omega

/-- An unsigned value fits exactly when the mask covers it. -/
theorem unsignedFits_iff (numBits : Nat) (value : Word) (width : numBits ≤ 64) :
    value &&& ~~~(bitMask numBits) = 0#64 ↔ value.toNat < 2 ^ numBits := by
  constructor
  · intro covered
    apply toNat_lt_of_getLsbD
    intro position above
    by_cases inside : position < 64
    · have bit := congrArg (fun word : Word => word.getLsbD position) covered
      have beyond : ¬ position < numBits := by omega
      simpa only [BitVec.getLsbD_and, BitVec.getLsbD_not, bitMask_getLsbD _ _ width, inside, beyond,
        decide_true, decide_false, Bool.not_false, Bool.and_true, BitVec.getLsbD_zero] using bit
    · exact BitVec.getLsbD_of_ge _ _ (by omega)
  · intro fits
    apply BitVec.eq_of_getLsbD_eq
    intro position inside
    by_cases below : position < numBits
    · simp [bitMask_getLsbD _ _ width, below]
    · simp [getLsbD_of_lt value numBits position fits (by omega)]

/-- A successful unsigned write stores its field and returns the next position. -/
theorem bitstreamWriteUint64_run (buf : List Word) (bufSizeBits bitIndex numBits : Nat)
    (value : Word) (positive : 0 < numBits) (width : numBits ≤ 64) (fits : value.toNat < 2 ^ numBits)
    (space : requiredBufSize bitIndex numBits ≤ bufSizeBits)
    (backed : bufSizeBits < 64 * (buf.length + 1)) :
    ∃ after, bitstreamWriteUint64 bufSizeBits bitIndex numBits value buf =
        .ok (bitIndex + numBits) after ∧ FieldWritten buf after bitIndex numBits value := by
  have room : bitIndex + numBits ≤ 64 * buf.length := by
    rw [requiredBufSize_eq] at space
    omega
  obtain ⟨after, stored, written⟩ := bitstreamStore_run (· >>> ·) buf bitIndex numBits value
    (fun count index _ => BitVec.getLsbD_ushiftRight value count index) positive width room
  refine ⟨after, ?_, written⟩
  have covered := (unsignedFits_iff numBits value width).mpr fits
  simp [bitstreamWriteUint64, Nat.not_lt.mpr space, width, covered, stored]

/-- A write beyond the last whole word leaves the buffer alone. -/
theorem bitstreamWriteUint64_full (buf : List Word) (bufSizeBits bitIndex numBits : Nat)
    (value : Word) (full : bufSizeBits < requiredBufSize bitIndex numBits) :
    bitstreamWriteUint64 bufSizeBits bitIndex numBits value buf =
      .error (.code .bitstreamOutOfSpace) buf := by
  simp [bitstreamWriteUint64, full]

/-- The signed values of one field width. -/
def SignedFits (numBits : Nat) (value : Word) : Prop :=
  -2 ^ (numBits - 1) ≤ value.toInt ∧ value.toInt < 2 ^ (numBits - 1)

instance (numBits : Nat) (value : Word) : Decidable (SignedFits numBits value) :=
  inferInstanceAs (Decidable (_ ∧ _))

/-- The range check of the signed writer is exact. -/
theorem signedOutOfRange_iff (numBits : Nat) (value : Word) (wide : 1 < numBits)
    (width : numBits ≤ 64) : signedOutOfRange numBits value ↔ ¬ SignedFits numBits value := by
  have bound := value.isLt
  have sign := BitVec.toInt_eq_toNat_cond value
  by_cases full : numBits = 64
  · subst full
    have lower := BitVec.le_toInt value
    have upper := BitVec.toInt_lt (x := value)
    simp only [signedOutOfRange, SignedFits, Nat.lt_irrefl, false_and, false_iff, not_not]
    omega
  have small : numBits - 1 < 63 := by omega
  have power : (2 : Nat) ^ (numBits - 1) < 2 ^ 63 := Nat.pow_lt_pow_right (by decide) small
  have below : numBits < 64 := by omega
  simp only [signedOutOfRange, SignedFits, below, true_and]
  by_cases negative : value.toInt < 0
  · have shifted : (-(1#64 <<< (numBits - 1))).toNat = 2 ^ 64 - 2 ^ (numBits - 1) := by
      rw [BitVec.toNat_neg, BitVec.toNat_shiftLeft, Nat.shiftLeft_eq, BitVec.toNat_ofNat]
      have positive : 0 < 2 ^ (numBits - 1) := Nat.two_pow_pos _
      omega
    rw [if_pos negative, BitVec.lt_def, shifted]
    push_cast at *
    have cast : ((2 ^ (numBits - 1) : Nat) : Int) = 2 ^ (numBits - 1) := by push_cast; rfl
    omega
  · rw [if_neg negative, ne_eq, unsignedFits_iff _ _ (by omega)]
    have cast : ((2 ^ (numBits - 1) : Nat) : Int) = 2 ^ (numBits - 1) := by push_cast; rfl
    omega

/-- A successful signed write stores the low bits of its value. -/
theorem bitstreamWriteInt64_run (buf : List Word) (bufSizeBits bitIndex numBits : Nat)
    (value : Word) (wide : 1 < numBits) (width : numBits ≤ 64) (fits : SignedFits numBits value)
    (space : requiredBufSize bitIndex numBits ≤ bufSizeBits)
    (backed : bufSizeBits < 64 * (buf.length + 1)) :
    ∃ after, bitstreamWriteInt64 bufSizeBits bitIndex numBits value buf =
        .ok (bitIndex + numBits) after ∧ FieldWritten buf after bitIndex numBits value := by
  have room : bitIndex + numBits ≤ 64 * buf.length := by
    rw [requiredBufSize_eq] at space
    omega
  obtain ⟨after, stored, written⟩ := bitstreamStore_run BitVec.sshiftRight buf bitIndex numBits value
    (fun count index inside => by
      rw [BitVec.getLsbD_sshiftRight, if_pos inside]
      simp; omega) (by omega) width room
  refine ⟨after, ?_, written⟩
  have inRange := mt (signedOutOfRange_iff numBits value wide width).mp (not_not.mpr fits)
  simp [bitstreamWriteInt64, Nat.not_lt.mpr space, wide, width, inRange, stored]

theorem bitstreamWriteInt64_full (buf : List Word) (bufSizeBits bitIndex numBits : Nat)
    (value : Word) (full : bufSizeBits < requiredBufSize bitIndex numBits) :
    bitstreamWriteInt64 bufSizeBits bitIndex numBits value buf =
      .error (.code .bitstreamOutOfSpace) buf := by
  simp [bitstreamWriteInt64, full]

/-- A value outside the signed range is refused before any bit is stored. -/
theorem bitstreamWriteInt64_bad (buf : List Word) (bufSizeBits bitIndex numBits : Nat)
    (value : Word) (wide : 1 < numBits) (width : numBits ≤ 64) (bad : ¬ SignedFits numBits value)
    (space : requiredBufSize bitIndex numBits ≤ bufSizeBits) :
    bitstreamWriteInt64 bufSizeBits bitIndex numBits value buf =
      .error (.code .bitstreamBadValue) buf := by
  have outside := (signedOutOfRange_iff numBits value wide width).mpr bad
  simp [bitstreamWriteInt64, Nat.not_lt.mpr space, wide, width, outside]

theorem readWord_run (buf : List Word) (slot : Nat) (inside : slot < buf.length) :
    readWord buf slot = .ok (buf.getD slot 0#64) := by
  simp [readWord, inside]

/-- The fetch collects the bits of its range. -/
theorem bitstreamFetch_run (buf : List Word) (bitIndex numBits : Nat) (positive : 0 < numBits)
    (width : numBits ≤ 64) (room : bitIndex + numBits ≤ 64 * buf.length) :
    ∃ value, bitstreamFetch buf bitIndex numBits = .ok value ∧ ∀ index, index < 64 →
      value.getLsbD index = (decide (index < numBits) && bitAt buf (bitIndex + index)) := by
  have split := Nat.div_add_mod bitIndex 64
  have below : bitIndex % 64 < 64 := Nat.mod_lt _ (by decide)
  have first : bitIndex / 64 < buf.length := by omega
  by_cases aligned : bitIndex % 64 = 0
  · refine ⟨buf.getD (bitIndex / 64) 0#64 &&& bitMask numBits, ?_, ?_⟩
    · simp [bitstreamFetch, aligned, readWord_run _ _ first, Except.map]
    · intro index inside
      rw [BitVec.getLsbD_and, bitMask_getLsbD _ _ width, Bool.and_comm, bitAt,
        show (bitIndex + index) / 64 = bitIndex / 64 by omega,
        show (bitIndex + index) % 64 = index by omega]
  · have low := lowMask_ne_zero numBits (bitIndex % 64) positive width below
    let lowPart : Word := buf.getD (bitIndex / 64) 0#64 &&& bitMask numBits <<< (bitIndex % 64)
    have lowBits : ∀ index, index < 64 → (lowPart >>> (bitIndex % 64)).getLsbD index =
        (decide (index < numBits ∧ bitIndex % 64 + index < 64) && bitAt buf (bitIndex + index)) := by
      intro index inside
      rw [BitVec.getLsbD_ushiftRight, BitVec.getLsbD_and]
      by_cases contained : bitIndex % 64 + index < 64
      · rw [lowMask_getLsbD _ _ _ width contained, bitAt,
          show (bitIndex + index) / 64 = bitIndex / 64 by omega,
          show (bitIndex + index) % 64 = bitIndex % 64 + index by omega, Bool.and_comm]
        simp [contained]
      · rw [BitVec.getLsbD_of_ge _ _ (by omega)]
        simp [contained]
    by_cases contained : numBits ≤ 64 - bitIndex % 64
    · have high := (highMask_eq_zero_iff numBits (bitIndex % 64) width).mpr contained
      refine ⟨(lowPart >>> (bitIndex % 64)) ||| (0#64 <<< (64 - bitIndex % 64)), ?_, ?_⟩
      · simp [bitstreamFetch, aligned, readWord_run _ _ first, Except.map, low, high, lowPart]
      · intro index inside
        rw [BitVec.getLsbD_or, lowBits index inside]
        have whole : (index < numBits ∧ bitIndex % 64 + index < 64) ↔ index < numBits := by omega
        simp [whole]
    · have high := mt (highMask_eq_zero_iff numBits (bitIndex % 64) width).mp contained
      have second : bitIndex / 64 + 1 < buf.length := by omega
      let highPart : Word :=
        buf.getD (bitIndex / 64 + 1) 0#64 &&& bitMask numBits >>> (64 - bitIndex % 64)
      refine ⟨(lowPart >>> (bitIndex % 64)) ||| (highPart <<< (64 - bitIndex % 64)), ?_, ?_⟩
      · simp [bitstreamFetch, aligned, readWord_run _ _ first, readWord_run _ _ second, Except.map,
          low, high, lowPart, highPart]
      · intro index inside
        rw [BitVec.getLsbD_or, lowBits index inside, BitVec.getLsbD_shiftLeft]
        by_cases inFirst : bitIndex % 64 + index < 64
        · have early : index < 64 - bitIndex % 64 := by omega
          simp [inFirst, early]
        · have late : ¬ index < 64 - bitIndex % 64 := by omega
          simp only [inFirst, and_false, decide_false, Bool.false_and, Bool.false_or, inside,
            decide_true, late, Bool.not_false, Bool.true_and, highPart, BitVec.getLsbD_and]
          rw [highMask_getLsbD _ _ _ width, bitAt,
            show (bitIndex + index) / 64 = bitIndex / 64 + 1 by omega,
            show (bitIndex + index) % 64 = index - (64 - bitIndex % 64) by omega,
            show 64 - bitIndex % 64 + (index - (64 - bitIndex % 64)) = index by omega, Bool.and_comm]

/-- The unsigned reader returns the field that was stored. -/
theorem bitstreamReadUint64_field (buf : List Word) (bufSizeBits bitIndex numBits : Nat)
    (value : Word) (stored : BitsAt buf bitIndex (fieldBits numBits value)) (positive : 0 < numBits)
    (width : numBits ≤ 64) (fits : value.toNat < 2 ^ numBits)
    (space : bitIndex + numBits ≤ bufSizeBits) (room : bitIndex + numBits ≤ 64 * buf.length) :
    bitstreamReadUint64 buf bufSizeBits bitIndex numBits = .ok value := by
  obtain ⟨fetched, run, bits⟩ := bitstreamFetch_run buf bitIndex numBits positive width room
  have same : fetched = value := by
    apply BitVec.eq_of_getLsbD_eq
    intro index inside
    rw [bits index inside]
    by_cases below : index < numBits
    · simp [below, bitAt_of_fieldBits stored index below]
    · simp [below, getLsbD_of_lt value numBits index fits (by omega)]
  rw [bitstreamReadUint64, if_neg (by omega), if_neg (by omega), run, same]

/-- A fitting signed value repeats its sign in every high bit. -/
theorem signedFits_getLsbD (numBits : Nat) (value : Word) (fits : SignedFits numBits value)
    (index : Nat) (high : numBits - 1 ≤ index) (inside : index < 64) :
    value.getLsbD index = decide (value.toInt < 0) := by
  have sign := BitVec.toInt_eq_toNat_cond value
  have bound := value.isLt
  have cast : ((2 ^ (numBits - 1) : Nat) : Int) = 2 ^ (numBits - 1) := by push_cast; rfl
  rw [SignedFits, ← cast] at fits
  by_cases negative : value.toInt < 0
  · have flipped : (~~~value).toNat < 2 ^ (numBits - 1) := by
      rw [BitVec.toNat_not]
      generalize 2 ^ (numBits - 1) = power at fits ⊢
      omega
    have bit := getLsbD_of_lt (~~~value) (numBits - 1) index flipped high
    simpa [inside, negative] using bit
  · have small : value.toNat < 2 ^ (numBits - 1) := by
      generalize 2 ^ (numBits - 1) = power at fits ⊢
      omega
    rw [getLsbD_of_lt value (numBits - 1) index small high, decide_eq_false negative]

/-- The fetch of a stored field returns the low bits of its value. -/
theorem bitstreamFetch_field (buf : List Word) (bitIndex numBits : Nat) (value : Word)
    (stored : BitsAt buf bitIndex (fieldBits numBits value)) (positive : 0 < numBits)
    (width : numBits ≤ 64) (room : bitIndex + numBits ≤ 64 * buf.length) :
    bitstreamFetch buf bitIndex numBits = .ok (value &&& bitMask numBits) := by
  obtain ⟨fetched, run, bits⟩ := bitstreamFetch_run buf bitIndex numBits positive width room
  have same : fetched = value &&& bitMask numBits := by
    apply BitVec.eq_of_getLsbD_eq
    intro index inside
    rw [bits index inside, BitVec.getLsbD_and, bitMask_getLsbD _ _ width]
    by_cases below : index < numBits
    · simp [below, bitAt_of_fieldBits stored index below]
    · simp [below]
  rw [run, same]

/-- The low bits of a fitting value are the value itself unless it is negative. -/
theorem fieldKept_iff (numBits : Nat) (value : Word) (fits : SignedFits numBits value)
    (width : numBits < 64) : value &&& bitMask numBits = value ↔ ¬ value.toInt < 0 := by
  constructor
  · intro kept negative
    have top := signedFits_getLsbD numBits value fits numBits (by omega) width
    rw [← kept, BitVec.getLsbD_and, bitMask_getLsbD _ _ (by omega)] at top
    simp [kept, negative] at top
  · intro positive
    apply BitVec.eq_of_getLsbD_eq
    intro index inside
    rw [BitVec.getLsbD_and, bitMask_getLsbD _ _ (by omega)]
    by_cases below : index < numBits
    · simp [below]
    · simp [below, signedFits_getLsbD numBits value fits index (by omega) inside, positive]

/-- The sign extension restores a fitting value exactly when it is negative. -/
theorem fieldExtended_iff (numBits : Nat) (value : Word) (fits : SignedFits numBits value)
    (width : numBits < 64) :
    (value &&& bitMask numBits) ||| ~~~(bitMask numBits) = value ↔ value.toInt < 0 := by
  constructor
  · intro extended
    have top := signedFits_getLsbD numBits value fits numBits (by omega) width
    rw [← extended, BitVec.getLsbD_or, BitVec.getLsbD_not, bitMask_getLsbD _ _ (by omega),
      extended] at top
    simpa [width] using top
  · intro negative
    apply BitVec.eq_of_getLsbD_eq
    intro index inside
    rw [BitVec.getLsbD_or, BitVec.getLsbD_and, BitVec.getLsbD_not, bitMask_getLsbD _ _ (by omega)]
    by_cases below : index < numBits
    · simp [below]
    · simp [below, inside, signedFits_getLsbD numBits value fits index (by omega) inside, negative]

/-- A one-bit mask tests that bit. -/
theorem and_ne_zero_iff (word mask : Word) (bit : Nat) (inside : bit < 64)
    (single : ∀ index, index < 64 → mask.getLsbD index = decide (index = bit)) :
    word &&& mask ≠ 0#64 ↔ word.getLsbD bit = true := by
  constructor
  · intro nonzero
    by_contra clear
    apply nonzero
    apply BitVec.eq_of_getLsbD_eq
    intro index below
    rw [BitVec.getLsbD_and, single index below, BitVec.getLsbD_zero]
    by_cases same : index = bit
    · simpa [same] using clear
    · simp [same]
  · intro set zero
    have cleared := congrArg (fun word : Word => word.getLsbD bit) zero
    simp [BitVec.getLsbD_and, single bit inside, set] at cleared

/-- Inside its field, the mask of the sign test is one bit, at the reduced shift count. -/
theorem msbMask_getLsbD (numBits index : Nat) (width : numBits < 64) (inside : index < 64) :
    (bitMask numBits &&& msbMask numBits).getLsbD index =
      decide (index < numBits ∧ index = (numBits - 1) % 32) := by
  have count : (numBits - 1) % 32 < 32 := Nat.mod_lt _ (by decide)
  rw [BitVec.getLsbD_and, bitMask_getLsbD _ _ (by omega), msbMask, BitVec.getLsbD_signExtend,
    Bool.decide_and]
  by_cases below : index < numBits
  · simp only [below, decide_true, Bool.true_and, inside]
    by_cases low : index < 32
    · rw [if_pos low, BitVec.getLsbD_shiftLeft, BitVec.getLsbD_one]
      by_cases same : index = (numBits - 1) % 32
      · simp [same, count]
      · by_cases before : index < (numBits - 1) % 32
        · simp [before, same]
        · simp [same]; omega
    · have clear : (1#32 <<< ((numBits - 1) % 32)).msb = false := by
        rw [BitVec.msb_eq_getLsbD_last, BitVec.getLsbD_shiftLeft, BitVec.getLsbD_one]
        simp; omega
      rw [if_neg low, clear]
      simp; omega
  · simp [below]

/-- Below 64 bits the signed reader is right exactly when the bit it tests is the sign. -/
theorem bitstreamReadInt64_iff (buf : List Word) (bufSizeBits bitIndex numBits : Nat)
    (value : Word) (stored : BitsAt buf bitIndex (fieldBits numBits value)) (wide : 1 < numBits)
    (width : numBits < 64) (fits : SignedFits numBits value)
    (space : bitIndex + numBits ≤ bufSizeBits) (room : bitIndex + numBits ≤ 64 * buf.length) :
    bitstreamReadInt64 buf bufSizeBits bitIndex numBits = .ok value ↔
      value.getLsbD ((numBits - 1) % 32) = decide (value.toInt < 0) := by
  have reduced : (numBits - 1) % 32 < numBits := by omega
  have tested : value &&& bitMask numBits &&& msbMask numBits ≠ 0#64 ↔
      value.getLsbD ((numBits - 1) % 32) = true := by
    rw [BitVec.and_assoc]
    apply and_ne_zero_iff _ _ _ (by omega)
    intro index inside
    rw [msbMask_getLsbD numBits index width inside, decide_eq_decide]
    omega
  rw [bitstreamReadInt64, if_neg (by omega), if_neg (by omega),
    bitstreamFetch_field buf bitIndex numBits value stored (by omega) (by omega) room]
  simp only [bind, Except.bind, pure, Except.pure, width, or_true, true_and, tested]
  by_cases set : value.getLsbD ((numBits - 1) % 32) = true
  · simp only [set, if_true, Except.ok.injEq, true_eq_decide_iff]
    exact fieldExtended_iff numBits value fits width
  · rw [if_neg set, Except.ok.injEq, fieldKept_iff numBits value fits width,
      Bool.eq_false_iff.mpr set, eq_comm, decide_eq_false_iff_not]

/-- The signed reader returns the value that was stored, for the widths whose sign test is sound. -/
theorem bitstreamReadInt64_field (buf : List Word) (bufSizeBits bitIndex numBits : Nat)
    (value : Word) (stored : BitsAt buf bitIndex (fieldBits numBits value)) (wide : 1 < numBits)
    (width : numBits ≤ 32 ∨ numBits = 64) (fits : SignedFits numBits value)
    (space : bitIndex + numBits ≤ bufSizeBits) (room : bitIndex + numBits ≤ 64 * buf.length) :
    bitstreamReadInt64 buf bufSizeBits bitIndex numBits = .ok value := by
  rcases width with narrow | full
  · rw [bitstreamReadInt64_iff buf bufSizeBits bitIndex numBits value stored wide (by omega) fits
      space room, Nat.mod_eq_of_lt (show numBits - 1 < 32 by omega)]
    exact signedFits_getLsbD numBits value fits (numBits - 1) (le_refl _) (by omega)
  · subst full
    have whole : bitMask 64 = BitVec.allOnes 64 := by decide
    rw [bitstreamReadInt64, if_neg (by omega), if_neg (by omega),
      bitstreamFetch_field buf bitIndex 64 value stored (by decide) (by decide) room, whole,
      BitVec.and_allOnes]
    simp [bind, Except.bind, pure, Except.pure]

end Menoetius
