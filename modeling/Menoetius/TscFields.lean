import Menoetius.TscCode

/-
This file proves that the four field functions of `tsc.c` write and read the code words.
-/

namespace Menoetius
open BitField

theorem codeInt_length_pos (x : Word) : 0 < (codeInt x).length := by
  unfold codeInt
  repeat' split
  all_goals simp

theorem codeInt_length_le (x : Word) : (codeInt x).length ≤ 36 := by
  unfold codeInt
  repeat' split
  all_goals simp

theorem codeDouble_length_pos (window : SigWindow) (x : Word) : 0 < (codeDouble window x).length := by
  unfold codeDouble
  repeat' split
  all_goals simp

/-- One class of timestamp difference is a tag and a signed field. -/
theorem taggedInt_writes (n bitIndex tagBits numBits : Nat) (tag x : Word) (positive : 0 < tagBits)
    (tagWidth : tagBits ≤ 64) (tagFits : tag.toNat < 2 ^ tagBits) (wide : 1 < numBits)
    (width : numBits ≤ 64) (fits : SignedFits numBits x) :
    Writes (bitstreamWriteUint64 n bitIndex tagBits tag >>= fun bitIndex =>
        bitstreamWriteInt64 n bitIndex numBits x) n bitIndex
      (fieldBits tagBits tag ++ fieldBits numBits x) (bitIndex + (tagBits + numBits)) := by
  rw [← Nat.add_assoc]
  refine (Writes.unsigned n bitIndex tagBits tag positive tagWidth tagFits).bind ?_
  rw [fieldBits_length]
  exact Writes.signed n (bitIndex + tagBits) numBits x wide width fits

/-- The timestamp writer appends the code word of every difference that fits 32 bits. -/
theorem tscWriteInt64_writes (n bitIndex : Nat) (x : Word) (fits : SignedFits 32 x) :
    Writes (tscWriteInt64 n bitIndex x) n bitIndex (codeInt x) (bitIndex + (codeInt x).length) := by
  unfold tscWriteInt64 codeInt
  split
  · exact Writes.unsigned n bitIndex 1 0#64 (by decide) (by decide) (by decide)
  split
  · rename_i small
    rw [List.length_append, fieldBits_length, fieldBits_length]
    exact taggedInt_writes n bitIndex 2 7 1#64 x (by decide) (by decide) (by decide) (by decide)
      (by decide) (by unfold SignedFits; omega)
  split
  · rename_i small
    rw [List.length_append, fieldBits_length, fieldBits_length]
    exact taggedInt_writes n bitIndex 3 9 3#64 x (by decide) (by decide) (by decide) (by decide)
      (by decide) (by unfold SignedFits; omega)
  split
  · rename_i small
    rw [List.length_append, fieldBits_length, fieldBits_length]
    exact taggedInt_writes n bitIndex 4 12 7#64 x (by decide) (by decide) (by decide) (by decide)
      (by decide) (by unfold SignedFits; omega)
  · rw [List.length_append, fieldBits_length, fieldBits_length]
    exact taggedInt_writes n bitIndex 4 32 15#64 x (by decide) (by decide) (by decide) (by decide)
      (by decide) fits

/-- A difference beyond 32 bits is refused after the tag of its class. -/
theorem tscWriteInt64_bad (buf : List Word) (n bitIndex : Nat) (x : Word) (bad : ¬ SignedFits 32 x)
    (space : wordsEnd (bitIndex + 36) ≤ n) (backed : n < 64 * (buf.length + 1)) :
    ∃ after, tscWriteInt64 n bitIndex x buf = .error (.code .bitstreamBadValue) after ∧
      Untouched buf after bitIndex := by
  have tagRoom : wordsEnd (bitIndex + 4) ≤ n := le_trans (wordsEnd_mono (by omega)) space
  have tag := Writes.unsigned n bitIndex 4 15#64 (by decide) (by decide) (by decide) buf backed
  rw [fieldBits_length, if_pos tagRoom] at tag
  obtain ⟨after, run, appended⟩ := tag
  refine ⟨after, ?_, appended.toUntouched⟩
  have refused := bitstreamWriteInt64_bad after n (bitIndex + 4) 32 x (by decide) (by decide) bad
    (by rw [requiredBufSize_wordsEnd]; exact space)
  unfold SignedFits at bad
  have nonzero : x ≠ 0#64 := by
    intro zero
    subst zero
    exact bad (by decide)
  rw [tscWriteInt64, if_neg nonzero, if_neg (by omega), if_neg (by omega), if_neg (by omega)]
  simp [run, refused]

/-- The unsigned step of a sequence, with the position written out. -/
theorem unsigned_then {α : Type} (n bitIndex numBits : Nat) (value : Word) (positive : 0 < numBits)
    (width : numBits ≤ 64) (fits : value.toNat < 2 ^ numBits) {next : Nat → BufM α}
    {more : List Bool} {result : α}
    (tail : Writes (next (bitIndex + numBits)) n (bitIndex + numBits) more result) :
    Writes (bitstreamWriteUint64 n bitIndex numBits value >>= next) n bitIndex
      (fieldBits numBits value ++ more) result := by
  refine (Writes.unsigned n bitIndex numBits value positive width fits).bind ?_
  rw [fieldBits_length]
  exact tail

/-- The value writer appends the code word and returns the next window. -/
theorem tscWriteDouble_writes (n bitIndex : Nat) (x : Word) (window : SigWindow)
    (valid : window.Valid) :
    Writes (tscWriteDouble n bitIndex x window.leading window.sigbits) n bitIndex
      (codeDouble window x)
      (bitIndex + (codeDouble window x).length, (nextWindow window x).leading,
        (nextWindow window x).sigbits) := by
  by_cases zero : x = 0#64
  · have bit := Writes.unsigned n bitIndex 1 0#64 (by decide) (by decide) (by decide)
    simpa only [tscWriteDouble, codeDouble, nextWindow, zero, if_true, true_or, fieldBits_length] using
      bit.map fun next => (next, window.leading, window.sigbits)
  by_cases keeps : keepsWindow window x
  · obtain ⟨positive, _, fits⟩ := keepsWindow_spec window valid x zero keeps
    obtain ⟨_, total⟩ := valid
    have shift : ((64 : Int) - window.leading - window.sigbits).toNat =
        64 - window.leading - window.sigbits := by omega
    have branch := keeps
    unfold keepsWindow ownWindow at branch
    simp only [tscWriteDouble, codeDouble, nextWindow, zero, if_false, if_true, keeps, or_true,
      List.length_append, fieldBits_length, branch, and_self, shift]
    rw [show bitIndex + (1 + (1 + window.sigbits)) = bitIndex + 1 + 1 + window.sigbits by omega]
    refine unsigned_then n bitIndex 1 1#64 (by decide) (by decide) (by decide) ?_
    refine unsigned_then n (bitIndex + 1) 1 0#64 (by decide) (by decide) (by decide) ?_
    exact (Writes.unsigned n (bitIndex + 1 + 1) window.sigbits _ positive (by omega) fits).map
      fun next => (next, window.leading, window.sigbits)
  · obtain ⟨leading, positive, sum, _⟩ := ownWindow_spec x zero
    have fits := ownWindow_fits x zero
    have leadingZeros : (if 32 ≤ builtinClzll x then 31 else builtinClzll x) =
        (ownWindow x).leading := rfl
    have sigBits : 64 - (ownWindow x).leading - builtinCtzll x = (ownWindow x).sigbits := rfl
    have branch := keeps
    unfold keepsWindow at branch
    simp only [tscWriteDouble, codeDouble, nextWindow, zero, if_false, keeps, or_self,
      List.length_append, fieldBits_length, leadingZeros, sigBits, branch]
    rw [show bitIndex + (1 + (1 + (5 + (6 + (ownWindow x).sigbits)))) =
      bitIndex + 1 + 1 + 5 + 6 + (ownWindow x).sigbits by omega]
    refine unsigned_then n bitIndex 1 1#64 (by decide) (by decide) (by decide) ?_
    refine unsigned_then n (bitIndex + 1) 1 1#64 (by decide) (by decide) (by decide) ?_
    rw [require_bind (show (if 32 ≤ builtinClzll x then 31 else builtinClzll x) ≤ 31 from leading)]
    refine unsigned_then n (bitIndex + 1 + 1) 5 _ (by decide) (by decide) (by simp; omega) ?_
    have inWord : 0 < (ownWindow x).sigbits ∧ (ownWindow x).sigbits ≤ 64 := by omega
    unfold ownWindow at inWord
    rw [require_bind inWord]
    have last := (Writes.unsigned n (bitIndex + 1 + 1 + 5 + 6) (ownWindow x).sigbits _ positive
      (by omega) fits).map fun next => (next, (ownWindow x).leading, (ownWindow x).sigbits)
    by_cases full : (ownWindow x).sigbits = 64
    · have zeros : (ownWindow x).leading = 0 ∧ builtinCtzll x = 0 := by omega
      unfold ownWindow at zeros
      simp only [full, if_true, require_bind zeros, pure_bind] at last ⊢
      exact unsigned_then n (bitIndex + 1 + 1 + 5) 6 0#64 (by decide) (by decide) (by decide) last
    · simp only [full, if_false]
      exact unsigned_then n (bitIndex + 1 + 1 + 5) 6 _ (by decide) (by decide) (by simp; omega) last

/-- The reader sees one stored bit as the number zero or one. -/
theorem readBit (buf : List Word) (n bitIndex : Nat) (bit : Bool) (stored : bitAt buf bitIndex = bit)
    (space : bitIndex + 1 ≤ n) (room : bitIndex + 1 ≤ 64 * buf.length) :
    bitstreamReadUint64 buf n bitIndex 1 = .ok (if bit then 1#64 else 0#64) := by
  apply bitstreamReadUint64_field buf n bitIndex 1 _ _ (by decide) (by decide) _ space room
  · rw [fieldBits_one, bitsAt_cons]
    refine ⟨?_, bitsAt_nil _ _⟩
    rw [stored]
    cases bit <;> rfl
  · cases bit <;> decide

/-- The timestamp reader inverts the code word. -/
theorem tscReadInt64_code (buf : List Word) (n bitIndex : Nat) (x : Word) (fits : SignedFits 32 x)
    (stored : BitsAt buf bitIndex (codeInt x)) (space : bitIndex + (codeInt x).length ≤ n)
    (room : bitIndex + (codeInt x).length ≤ 64 * buf.length) :
    tscReadInt64 buf n bitIndex = .ok (x, (codeInt x).length) := by
  have tag2 : fieldBits 2 1#64 = [true, false] := by decide
  have tag3 : fieldBits 3 3#64 = [true, true, false] := by decide
  have tag4 : fieldBits 4 7#64 = [true, true, true, false] := by decide
  have tag5 : fieldBits 4 15#64 = [true, true, true, true] := by decide
  unfold codeInt at stored space room ⊢
  split at stored
  · rename_i zero
    rw [if_pos zero] at space room ⊢
    rw [fieldBits_one, bitsAt_cons] at stored
    rw [fieldBits_length] at space room ⊢
    subst zero
    simp [tscReadInt64, readBit buf n bitIndex _ stored.1 space room, bind, Except.bind, pure,
      Except.pure]
  rename_i nonzero
  rw [if_neg nonzero] at space room ⊢
  split at stored
  · rename_i small
    rw [if_pos small, List.length_append, fieldBits_length, fieldBits_length] at space room
    rw [if_pos small, List.length_append, fieldBits_length, fieldBits_length]
    rw [tag2, bitsAt_append, bitsAt_cons, bitsAt_cons] at stored
    obtain ⟨⟨first, second, _⟩, value⟩ := stored
    have read := bitstreamReadInt64_field buf n (bitIndex + 2) 7 x value (by decide) (by decide)
      (by unfold SignedFits; omega) (by omega) (by omega)
    simp [tscReadInt64, readBit buf n _ _ first (by omega) (by omega),
      readBit buf n _ _ second (by omega) (by omega), read, bind, Except.bind, pure, Except.pure]
  rename_i large
  rw [if_neg large] at space room ⊢
  split at stored
  · rename_i small
    rw [if_pos small, List.length_append, fieldBits_length, fieldBits_length] at space room
    rw [if_pos small, List.length_append, fieldBits_length, fieldBits_length]
    rw [tag3, bitsAt_append, bitsAt_cons, bitsAt_cons, bitsAt_cons] at stored
    obtain ⟨⟨first, second, third, _⟩, value⟩ := stored
    have read := bitstreamReadInt64_field buf n (bitIndex + 3) 9 x value (by decide) (by decide)
      (by unfold SignedFits; omega) (by omega) (by omega)
    simp [tscReadInt64, readBit buf n _ _ first (by omega) (by omega),
      readBit buf n _ _ second (by omega) (by omega), readBit buf n _ _ third (by omega) (by omega),
      read, bind, Except.bind, pure, Except.pure]
  rename_i larger
  rw [if_neg larger] at space room ⊢
  split at stored
  · rename_i small
    rw [if_pos small, List.length_append, fieldBits_length, fieldBits_length] at space room
    rw [if_pos small, List.length_append, fieldBits_length, fieldBits_length]
    rw [tag4, bitsAt_append, bitsAt_cons, bitsAt_cons, bitsAt_cons, bitsAt_cons] at stored
    obtain ⟨⟨first, second, third, fourth, _⟩, value⟩ := stored
    have read := bitstreamReadInt64_field buf n (bitIndex + 4) 12 x value (by decide) (by decide)
      (by unfold SignedFits; omega) (by omega) (by omega)
    simp [tscReadInt64, readBit buf n _ _ first (by omega) (by omega),
      readBit buf n _ _ second (by omega) (by omega), readBit buf n _ _ third (by omega) (by omega),
      readBit buf n _ _ fourth (by omega) (by omega), read, bind, Except.bind, pure, Except.pure]
  · rename_i largest
    rw [if_neg largest, List.length_append, fieldBits_length, fieldBits_length] at space room
    rw [if_neg largest, List.length_append, fieldBits_length, fieldBits_length]
    rw [tag5, bitsAt_append, bitsAt_cons, bitsAt_cons, bitsAt_cons, bitsAt_cons] at stored
    obtain ⟨⟨first, second, third, fourth, _⟩, value⟩ := stored
    have read := bitstreamReadInt64_field buf n (bitIndex + 4) 32 x value (by decide) (by decide)
      fits (by omega) (by omega)
    simp [tscReadInt64, readBit buf n _ _ first (by omega) (by omega),
      readBit buf n _ _ second (by omega) (by omega), readBit buf n _ _ third (by omega) (by omega),
      readBit buf n _ _ fourth (by omega) (by omega), read, bind, Except.bind, pure, Except.pure]

/-- The value reader inverts the code word and follows the window of the writer. -/
theorem tscReadDouble_code (buf : List Word) (n bitIndex : Nat) (x : Word) (window : SigWindow)
    (valid : window.Valid) (stored : BitsAt buf bitIndex (codeDouble window x))
    (space : bitIndex + (codeDouble window x).length ≤ n)
    (room : bitIndex + (codeDouble window x).length ≤ 64 * buf.length) :
    tscReadDouble buf n bitIndex window.leading window.sigbits =
      .ok (x, (codeDouble window x).length, (nextWindow window x).leading,
        (nextWindow window x).sigbits) := by
  unfold codeDouble at stored space room ⊢
  unfold nextWindow
  split at stored
  · rename_i zero
    rw [if_pos zero, fieldBits_length] at space room
    rw [if_pos zero, fieldBits_length, if_pos (Or.inl zero)]
    rw [fieldBits_one, bitsAt_cons] at stored
    subst zero
    simp [tscReadDouble, readBit buf n bitIndex _ stored.1 space room, bind, Except.bind, pure,
      Except.pure]
  rename_i nonzero
  have set : fieldBits 1 1#64 = [true] := by decide
  have unset : fieldBits 1 0#64 = [false] := by decide
  rw [if_neg nonzero] at space room ⊢
  split at stored
  · rename_i keeps
    obtain ⟨positive, trailing, fits⟩ := keepsWindow_spec window valid x nonzero keeps
    obtain ⟨_, total⟩ := valid
    rw [if_pos keeps] at space room
    rw [if_pos keeps, if_pos (Or.inr keeps)]
    simp only [List.length_append, fieldBits_length, set, unset, bitsAt_append, bitsAt_cons,
      List.length_cons, List.length_nil, Nat.zero_add] at stored space room ⊢
    obtain ⟨⟨first, _⟩, ⟨second, _⟩, value⟩ := stored
    have read := bitstreamReadUint64_field buf n (bitIndex + 2) window.sigbits _ value positive
      (by omega) fits (by omega) (by omega)
    have shift : ((64 : Int) - window.sigbits - window.leading).toNat =
        64 - window.leading - window.sigbits := by omega
    simp [tscReadDouble, readBit buf n _ _ first (by omega) (by omega), bind, Except.bind, pure,
      Except.pure, readBit buf n _ _ second (by omega) (by omega), read, shift,
      shiftRight_shiftLeft x _ nonzero trailing, ← Nat.add_assoc]
  · rename_i resets
    obtain ⟨leading, positive, sum, _⟩ := ownWindow_spec x nonzero
    have reset : ¬ (x = 0#64 ∨ keepsWindow window x) := by simp [nonzero, resets]
    rw [if_neg resets] at space room
    rw [if_neg resets, if_neg reset]
    simp only [List.length_append, fieldBits_length, set, bitsAt_append, bitsAt_cons,
      List.length_cons, List.length_nil, Nat.zero_add] at stored space room ⊢
    obtain ⟨⟨first, _⟩, ⟨second, _⟩, third, fourth, value⟩ := stored
    have fits := ownWindow_fits x nonzero
    have readLeading := bitstreamReadUint64_field buf n (bitIndex + 2) 5 _ third (by decide)
      (by decide) (by simp; omega) (by omega) (by omega)
    have readSigbits := bitstreamReadUint64_field buf n (bitIndex + 2 + 5) 6 _ fourth (by decide)
      (by decide) (by split <;> simp; omega) (by omega) (by omega)
    have readValue := bitstreamReadUint64_field buf n (bitIndex + 2 + 5 + 6) (ownWindow x).sigbits _
      value positive (by omega) fits (by omega) (by omega)
    have leadingBack : (BitVec.ofNat 64 (ownWindow x).leading).toNat = (ownWindow x).leading := by
      simp; omega
    have sigbitsBack : (if (if (ownWindow x).sigbits = 64 then 0#64
          else BitVec.ofNat 64 (ownWindow x).sigbits) = 0#64 then 64
        else (if (ownWindow x).sigbits = 64 then 0#64
          else BitVec.ofNat 64 (ownWindow x).sigbits).toNat) = (ownWindow x).sigbits := by
      by_cases full : (ownWindow x).sigbits = 64
      · simp [full]
      · have small : (ownWindow x).sigbits < 2 ^ 64 := by omega
        have nonempty : BitVec.ofNat 64 (ownWindow x).sigbits ≠ 0#64 := by
          intro zero
          have value := congrArg BitVec.toNat zero
          rw [BitVec.toNat_ofNat, Nat.mod_eq_of_lt small] at value
          simp at value
          omega
        rw [if_neg full, if_neg nonempty, BitVec.toNat_ofNat, Nat.mod_eq_of_lt small]
    have shift : ((64 : Int) - (ownWindow x).sigbits - (ownWindow x).leading).toNat = builtinCtzll x := by
      omega
    simp only [tscReadDouble, readBit buf n _ _ first (by omega) (by omega), bind, Except.bind, pure,
      Except.pure, readBit buf n _ _ second (by omega) (by omega), readLeading, readSigbits,
      leadingBack, sigbitsBack, readValue, shift, shiftRight_shiftLeft x _ nonzero (le_refl _)]
    simp [← Nat.add_assoc]

end Menoetius
