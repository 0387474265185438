import Menoetius.BitstreamField

/-
This file states what the callers of `bitstream.c` may rely on, for every width and offset.
-/

namespace Menoetius
open BitField

/-- A write changes no bit outside its field, and no bit at all when it returns an error. -/
def FieldFramed (before : List Word) (bitIndex numBits : Nat) :
    EStateM.Result Failure (List Word) Nat → Prop
  | .ok _ after => after.length = before.length ∧
      ∀ position, position < bitIndex ∨ bitIndex + numBits ≤ position →
        bitAt after position = bitAt before position
  | .error failure after => (∃ code, failure = .code code) ∧ after = before

/-- A written field leaves every other bit alone. -/
theorem FieldWritten.framed {before after : List Word} {bitIndex numBits next : Nat} {value : Word}
    (written : FieldWritten before after bitIndex numBits value) :
    FieldFramed before bitIndex numBits (.ok next after) := by
  refine ⟨written.length, fun position outside => ?_⟩
  rw [written.bits, if_neg (by omega)]

/-- A written range stores the field of its value. -/
theorem FieldWritten.stored {before after : List Word} {bitIndex numBits : Nat} {value : Word}
    (written : FieldWritten before after bitIndex numBits value) :
    BitsAt after bitIndex (fieldBits numBits value) := by
  apply bitsAt_fieldBits
  intro step inside
  rw [written.bits, if_pos (by omega), Nat.add_sub_cancel_left]

section Writers
variable (buf : List Word) (bitIndex numBits : Nat) (value : Word)

/-- A value outside the unsigned range is refused before any bit is stored. -/
theorem bitstreamWriteUint64_bad (bufSizeBits : Nat) (width : numBits ≤ 64)
    (bad : ¬ value.toNat < 2 ^ numBits) (space : requiredBufSize bitIndex numBits ≤ bufSizeBits) :
    bitstreamWriteUint64 bufSizeBits bitIndex numBits value buf =
      .error (.code .bitstreamBadValue) buf := by
  have outside := mt (unsignedFits_iff numBits value width).mp bad
  simp [bitstreamWriteUint64, Nat.not_lt.mpr space, width, outside]

/-- The unsigned writer either stores its field or refuses with an error code. -/
theorem bitstreamWriteUint64_cases (positive : 0 < numBits) (width : numBits ≤ 64) :
    (∃ after, bitstreamWriteUint64 (64 * buf.length) bitIndex numBits value buf =
        .ok (bitIndex + numBits) after ∧ FieldWritten buf after bitIndex numBits value ∧
        value.toNat < 2 ^ numBits ∧ requiredBufSize bitIndex numBits ≤ 64 * buf.length) ∨
      ∃ code, bitstreamWriteUint64 (64 * buf.length) bitIndex numBits value buf =
        .error (.code code) buf ∧
        ¬ (value.toNat < 2 ^ numBits ∧ requiredBufSize bitIndex numBits ≤ 64 * buf.length) := by
  by_cases space : requiredBufSize bitIndex numBits ≤ 64 * buf.length
  · by_cases fits : value.toNat < 2 ^ numBits
    · left
      obtain ⟨after, run, written⟩ := bitstreamWriteUint64_run buf (64 * buf.length) bitIndex numBits
        value positive width fits space (by omega)
      exact ⟨after, run, written, fits, space⟩
    · right
      exact ⟨_, bitstreamWriteUint64_bad buf bitIndex numBits value _ width fits space,
        fun both => fits both.1⟩
  · right
    exact ⟨_, bitstreamWriteUint64_full buf _ bitIndex numBits value (by omega),
      fun both => space both.2⟩

/-- The signed writer either stores its field or refuses with an error code. -/
theorem bitstreamWriteInt64_cases (wide : 1 < numBits) (width : numBits ≤ 64) :
    (∃ after, bitstreamWriteInt64 (64 * buf.length) bitIndex numBits value buf =
        .ok (bitIndex + numBits) after ∧ FieldWritten buf after bitIndex numBits value ∧
        SignedFits numBits value ∧ requiredBufSize bitIndex numBits ≤ 64 * buf.length) ∨
      ∃ code, bitstreamWriteInt64 (64 * buf.length) bitIndex numBits value buf =
        .error (.code code) buf ∧
        ¬ (SignedFits numBits value ∧ requiredBufSize bitIndex numBits ≤ 64 * buf.length) := by
  by_cases space : requiredBufSize bitIndex numBits ≤ 64 * buf.length
  · by_cases fits : SignedFits numBits value
    · left
      obtain ⟨after, run, written⟩ := bitstreamWriteInt64_run buf (64 * buf.length) bitIndex numBits
        value wide width fits space (by omega)
      exact ⟨after, run, written, fits, space⟩
    · right
      exact ⟨_, bitstreamWriteInt64_bad buf _ bitIndex numBits value wide width fits space,
        fun both => fits both.1⟩
  · right
    exact ⟨_, bitstreamWriteInt64_full buf _ bitIndex numBits value (by omega),
      fun both => space both.2⟩

theorem bitstreamWriteUint64_accepts (positive : 0 < numBits) (width : numBits ≤ 64) :
    (∃ next after, bitstreamWriteUint64 (64 * buf.length) bitIndex numBits value buf =
        .ok next after) ↔
      value.toNat < 2 ^ numBits ∧ 64 * ((bitIndex + numBits + 63) / 64) ≤ 64 * buf.length := by
  rw [← requiredBufSize_eq]
  rcases bitstreamWriteUint64_cases buf bitIndex numBits value positive width with
    ⟨after, run, -, inside⟩ | ⟨code, run, outside⟩
  · simp [run, inside]
  · simp only [run, reduceCtorEq, exists_false, outside]

theorem bitstreamWriteUint64_framed (positive : 0 < numBits) (width : numBits ≤ 64) :
    FieldFramed buf bitIndex numBits
      (bitstreamWriteUint64 (64 * buf.length) bitIndex numBits value buf) := by
  rcases bitstreamWriteUint64_cases buf bitIndex numBits value positive width with
    ⟨after, run, written, -⟩ | ⟨code, run, -⟩
  · rw [run]
    exact written.framed
  · simp [run, FieldFramed]

theorem bitstreamWriteInt64_framed (wide : 1 < numBits) (width : numBits ≤ 64) :
    FieldFramed buf bitIndex numBits
      (bitstreamWriteInt64 (64 * buf.length) bitIndex numBits value buf) := by
  rcases bitstreamWriteInt64_cases buf bitIndex numBits value wide width with
    ⟨after, run, written, -⟩ | ⟨code, run, -⟩
  · rw [run]
    exact written.framed
  · simp [run, FieldFramed]

/-- The unsigned reader finds what the unsigned writer stored. -/
theorem bitstreamReadUint64_written (positive : 0 < numBits) (width : numBits ≤ 64) (next : Nat)
    (after : List Word)
    (run : bitstreamWriteUint64 (64 * buf.length) bitIndex numBits value buf = .ok next after) :
    bitstreamReadUint64 after (64 * after.length) bitIndex numBits = .ok value := by
  rcases bitstreamWriteUint64_cases buf bitIndex numBits value positive width with
    ⟨stored, result, written, fits, space⟩ | ⟨code, result, -⟩
  · obtain ⟨-, rfl⟩ : bitIndex + numBits = next ∧ stored = after := by simpa [result] using run
    have room : bitIndex + numBits ≤ 64 * stored.length := by
      rw [requiredBufSize_eq] at space
      rw [written.length]
      omega
    exact bitstreamReadUint64_field stored _ bitIndex numBits value written.stored positive width
      fits room room
  · simp [result] at run

/-- An unsigned field of any width at any offset comes back, and a write never reaches beyond it. -/
theorem bitstreamUint64_field (positive : 0 < numBits) (width : numBits ≤ 64) :
    ((∃ next after, bitstreamWriteUint64 (64 * buf.length) bitIndex numBits value buf =
        .ok next after) ↔
      value.toNat < 2 ^ numBits ∧ 64 * ((bitIndex + numBits + 63) / 64) ≤ 64 * buf.length) ∧
    (∀ next after, bitstreamWriteUint64 (64 * buf.length) bitIndex numBits value buf =
        .ok next after →
      bitstreamReadUint64 after (64 * after.length) bitIndex numBits = .ok value) ∧
    FieldFramed buf bitIndex numBits
      (bitstreamWriteUint64 (64 * buf.length) bitIndex numBits value buf) ∧
    (1 < numBits → FieldFramed buf bitIndex numBits
      (bitstreamWriteInt64 (64 * buf.length) bitIndex numBits value buf)) :=
  ⟨bitstreamWriteUint64_accepts buf bitIndex numBits value positive width,
    bitstreamReadUint64_written buf bitIndex numBits value positive width,
    bitstreamWriteUint64_framed buf bitIndex numBits value positive width,
    fun wide => bitstreamWriteInt64_framed buf bitIndex numBits value wide width⟩

/-- Eight set bits across a word boundary come back from a buffer of two words. -/
theorem bitstreamUint64_field_straddling :
    bitstreamReadUint64 [0xF000000000000000#64, 0xF#64]
      (64 * [0xF000000000000000#64, 0xF#64].length) 60 8 = .ok 255#64 :=
  (bitstreamUint64_field [0#64, 0#64] 60 8 255#64 (by decide) (by decide)).2.1 68
    [0xF000000000000000#64, 0xF#64] rfl

/-- The signed reader tests the sign bit of these fields, or a bit that equals it. -/
def SignTested (numBits : Nat) (value : Word) : Prop :=
  numBits ≤ 32 ∨ numBits = 64 ∨ value.getLsbD (numBits - 33) = decide (value.toInt < 0)

instance (numBits : Nat) (value : Word) : Decidable (SignTested numBits value) :=
  inferInstanceAs (Decidable (_ ∨ _))

/-- A stored signed field comes back exactly when the reader tests its sign. -/
theorem bitstreamReadInt64_tested (bufSizeBits : Nat)
    (stored : BitsAt buf bitIndex (fieldBits numBits value)) (wide : 1 < numBits)
    (width : numBits ≤ 64) (fits : SignedFits numBits value)
    (space : bitIndex + numBits ≤ bufSizeBits) (room : bitIndex + numBits ≤ 64 * buf.length) :
    bitstreamReadInt64 buf bufSizeBits bitIndex numBits = .ok value ↔ SignTested numBits value := by
  by_cases sound : numBits ≤ 32 ∨ numBits = 64
  · have back := bitstreamReadInt64_field buf bufSizeBits bitIndex numBits value stored wide sound
      fits space room
    have tested : SignTested numBits value := or_assoc.mp (Or.inl sound)
    simp only [back, tested]
  · have reduced : (numBits - 1) % 32 = numBits - 33 := by omega
    rw [bitstreamReadInt64_iff buf bufSizeBits bitIndex numBits value stored wide (by omega) fits
      space room, reduced, SignTested, ← or_assoc, or_iff_right sound]

/-- The signed writer accepts exactly its range, and its reader returns the value exactly when it
tests the sign bit. -/
theorem bitstreamInt64_field (wide : 1 < numBits) (width : numBits ≤ 64)
    (room : bitIndex + numBits ≤ 64 * buf.length) :
    (((∃ next after, bitstreamWriteInt64 (64 * buf.length) bitIndex numBits value buf =
        .ok next after) ↔ -2 ^ (numBits - 1) ≤ value.toInt ∧ value.toInt < 2 ^ (numBits - 1)) ∧
      ∀ next after, bitstreamWriteInt64 (64 * buf.length) bitIndex numBits value buf =
          .ok next after →
        bitstreamReadInt64 after (64 * after.length) bitIndex numBits = .ok value) ↔
      (SignedFits numBits value → SignTested numBits value) := by
  have space : requiredBufSize bitIndex numBits ≤ 64 * buf.length := by
    rw [requiredBufSize_eq]
    omega
  change ((_ ↔ SignedFits numBits value) ∧ _) ↔ _
  rcases bitstreamWriteInt64_cases buf bitIndex numBits value wide width with
    ⟨after, run, written, fits, -⟩ | ⟨code, run, outside⟩
  · have read := bitstreamReadInt64_tested after bitIndex numBits value (64 * after.length)
      written.stored wide width fits (by rw [written.length]; exact room)
      (by rw [written.length]; exact room)
    simp [run, fits, read]
  · have bad : ¬ SignedFits numBits value := fun fits => outside ⟨fits, space⟩
    simp [run, bad]

/-- A field of 33 bits at the start of one word restores one and changes one at the sign test. -/
theorem bitstreamInt64_field_minusOne :
    ((∃ next after, bitstreamWriteInt64 (64 * [0#64].length) 0 33 (-1#64) [0#64] =
        .ok next after) ↔ -2 ^ (33 - 1) ≤ (-1#64).toInt ∧ (-1#64).toInt < 2 ^ (33 - 1)) ∧
      ∀ next after, bitstreamWriteInt64 (64 * [0#64].length) 0 33 (-1#64) [0#64] = .ok next after →
        bitstreamReadInt64 after (64 * after.length) 0 33 = .ok (-1#64) :=
  (bitstreamInt64_field [0#64] 0 33 (-1#64) (by decide) (by decide) (by decide)).mpr
    fun _ => by decide

/-- The value one comes back from a field of 33 bits as a negative number. -/
theorem bitstreamInt64_field_one :
    ¬ ∀ (buf : List Word) (bitIndex numBits : Nat) (value : Word), 1 < numBits → numBits ≤ 64 →
      bitIndex + numBits ≤ 64 * buf.length →
      ((∃ next after, bitstreamWriteInt64 (64 * buf.length) bitIndex numBits value buf =
          .ok next after) ↔ -2 ^ (numBits - 1) ≤ value.toInt ∧ value.toInt < 2 ^ (numBits - 1)) ∧
        ∀ next after, bitstreamWriteInt64 (64 * buf.length) bitIndex numBits value buf =
            .ok next after →
          bitstreamReadInt64 after (64 * after.length) bitIndex numBits = .ok value := by
  intro claim
  have back := (claim [0#64] 0 33 1#64 (by decide) (by decide) (by decide)).2 33 [1#64] rfl
  have read : bitstreamReadInt64 [1#64] (64 * [1#64].length) 0 33 =
      .ok 0xFFFFFFFE00000001#64 := by decide
  rw [read] at back
  simp at back

end Writers

end Menoetius
