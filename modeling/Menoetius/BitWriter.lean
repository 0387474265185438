import Menoetius.BitstreamField

/-
This file composes field writes. A sequence of writes appends one bit string, or runs out of space
without touching the bits before its start.
-/

namespace Menoetius
open BitField

/-- A failed sequence leaves every bit before its start alone. -/
structure Untouched (before after : List Word) (start : Nat) : Prop where
  length : after.length = before.length
  kept : ∀ position, position < start → bitAt after position = bitAt before position

/-- A complete sequence has appended its bit string. -/
structure Appended (before after : List Word) (start : Nat) (bits : List Bool) : Prop
    extends Untouched before after start where
  stored : BitsAt after start bits

theorem Untouched.refl (buf : List Word) (start : Nat) : Untouched buf buf start :=
  ⟨rfl, fun _ _ => rfl⟩

theorem Appended.untouched_next {before middle after : List Word} {start : Nat} {bits : List Bool}
    (first : Appended before middle start bits)
    (second : Untouched middle after (start + bits.length)) : Untouched before after start where
  length := second.length.trans first.length
  kept position below := by
    rw [second.kept position (by omega), first.kept position below]

theorem Appended.append_next {before middle after : List Word} {start : Nat} {bits more : List Bool}
    (first : Appended before middle start bits)
    (second : Appended middle after (start + bits.length) more) :
    Appended before after start (bits ++ more) where
  toUntouched := first.untouched_next second.toUntouched
  stored := by
    rw [bitsAt_append]
    refine ⟨bitsAt_of_agree first.stored fun position _ below => second.kept position below,
      second.stored⟩

theorem FieldWritten.appended {before after : List Word} {bitIndex numBits : Nat} {value : Word}
    (written : FieldWritten before after bitIndex numBits value) :
    Appended before after bitIndex (fieldBits numBits value) where
  length := written.length
  kept position below := by
    rw [written.bits, if_neg (by omega)]
  stored := by
    apply bitsAt_fieldBits
    intro step inside
    rw [written.bits, if_pos (by omega), Nat.add_sub_cancel_left]

/-- The size of a bit string in whole words, from the first word on. -/
def wordsEnd (length : Nat) : Nat := 64 * ((length + 63) / 64)

theorem requiredBufSize_wordsEnd (bitIndex numBits : Nat) :
    requiredBufSize bitIndex numBits = wordsEnd (bitIndex + numBits) :=
  requiredBufSize_eq bitIndex numBits

theorem wordsEnd_mono {first second : Nat} (le : first ≤ second) :
    wordsEnd first ≤ wordsEnd second := by
  unfold wordsEnd
  omega

theorem le_wordsEnd (length : Nat) : length ≤ wordsEnd length := by
  unfold wordsEnd
  omega

/-- The writer appends the bit string at the start when the buffer has the words for it, and
otherwise runs out of space. -/
def Writes {α : Type} (writer : BufM α) (n start : Nat) (bits : List Bool) (result : α) : Prop :=
  ∀ buf : List Word, n < 64 * (buf.length + 1) →
    if wordsEnd (start + bits.length) ≤ n then
      ∃ after, writer buf = .ok result after ∧ Appended buf after start bits
    else ∃ after, writer buf = .error (.code .bitstreamOutOfSpace) after ∧ Untouched buf after start

theorem Writes.unsigned (n bitIndex numBits : Nat) (value : Word) (positive : 0 < numBits)
    (width : numBits ≤ 64) (fits : value.toNat < 2 ^ numBits) :
    Writes (bitstreamWriteUint64 n bitIndex numBits value) n bitIndex (fieldBits numBits value)
      (bitIndex + numBits) := by
  intro buf backed
  rw [fieldBits_length, ← requiredBufSize_wordsEnd]
  split
  · rename_i space
    obtain ⟨after, run, written⟩ :=
      bitstreamWriteUint64_run buf n bitIndex numBits value positive width fits space backed
    exact ⟨after, run, written.appended⟩
  · rename_i full
    exact ⟨buf, bitstreamWriteUint64_full buf n bitIndex numBits value (by omega),
      Untouched.refl buf bitIndex⟩

theorem Writes.signed (n bitIndex numBits : Nat) (value : Word) (wide : 1 < numBits)
    (width : numBits ≤ 64) (fits : SignedFits numBits value) :
    Writes (bitstreamWriteInt64 n bitIndex numBits value) n bitIndex (fieldBits numBits value)
      (bitIndex + numBits) := by
  intro buf backed
  rw [fieldBits_length, ← requiredBufSize_wordsEnd]
  split
  · rename_i space
    obtain ⟨after, run, written⟩ :=
      bitstreamWriteInt64_run buf n bitIndex numBits value wide width fits space backed
    exact ⟨after, run, written.appended⟩
  · rename_i full
    exact ⟨buf, bitstreamWriteInt64_full buf n bitIndex numBits value (by omega),
      Untouched.refl buf bitIndex⟩

/-- Two writers in sequence append both bit strings. -/
theorem Writes.bind {α β : Type} {first : BufM α} {next : α → BufM β} {n start : Nat}
    {bits more : List Bool} {middle : α} {result : β} (head : Writes first n start bits middle)
    (tail : Writes (next middle) n (start + bits.length) more result) :
    Writes (first >>= next) n start (bits ++ more) result := by
  intro buf backed
  have headRun := head buf backed
  rw [List.length_append, ← Nat.add_assoc]
  by_cases headFits : wordsEnd (start + bits.length) ≤ n
  · rw [if_pos headFits] at headRun
    obtain ⟨between, run, appended⟩ := headRun
    have tailRun := tail between (by rw [appended.length]; exact backed)
    split
    · rename_i fits
      rw [if_pos fits] at tailRun
      obtain ⟨after, last, more⟩ := tailRun
      exact ⟨after, by simp [run, last], appended.append_next more⟩
    · rename_i full
      rw [if_neg full] at tailRun
      obtain ⟨after, last, more⟩ := tailRun
      exact ⟨after, by simp [run, last], appended.untouched_next more⟩
  · rw [if_neg headFits] at headRun
    obtain ⟨after, run, untouched⟩ := headRun
    have longer := wordsEnd_mono (Nat.le_add_right (start + bits.length) more.length)
    rw [if_neg (by omega)]
    exact ⟨after, by simp [run], untouched⟩

/-- A pure continuation only renames the result. -/
theorem Writes.map {α β : Type} {writer : BufM α} {n start : Nat} {bits : List Bool} {middle : α}
    (head : Writes writer n start bits middle) (f : α → β) :
    Writes (writer >>= fun value => pure (f value)) n start bits (f middle) := by
  intro buf backed
  have run := head buf backed
  split
  · rename_i fits
    rw [if_pos fits] at run
    obtain ⟨after, run, appended⟩ := run
    exact ⟨after, by simp [run], appended⟩
  · rename_i full
    rw [if_neg full] at run
    obtain ⟨after, run, untouched⟩ := run
    exact ⟨after, by simp [run], untouched⟩

end Menoetius
