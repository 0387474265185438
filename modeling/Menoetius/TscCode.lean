import Menoetius.Tsc
import Menoetius.BitWriter

/-
This file states the block format as a prefix code on bit strings. The writers of `tsc.c` append the
code words, and its readers read them back.
-/

namespace Menoetius
open BitField

/-- The code word of a timestamp difference. -/
def codeInt (x : Word) : List Bool :=
  if x = 0#64 then fieldBits 1 0#64
  else if -64 ≤ x.toInt ∧ x.toInt ≤ 63 then fieldBits 2 1#64 ++ fieldBits 7 x
  else if -256 ≤ x.toInt ∧ x.toInt ≤ 255 then fieldBits 3 3#64 ++ fieldBits 9 x
  else if -2048 ≤ x.toInt ∧ x.toInt ≤ 2047 then fieldBits 4 7#64 ++ fieldBits 12 x
  else fieldBits 4 15#64 ++ fieldBits 32 x

/-- The cached window of significant bits, `last_leading` and `last_sigbits`. -/
structure SigWindow where
  leading : Nat
  sigbits : Nat
  deriving DecidableEq, Repr

/-- A window lies inside the word, and its leading zeros fit the five-bit field. -/
def SigWindow.Valid (window : SigWindow) : Prop :=
  window.leading ≤ 31 ∧ window.leading + window.sigbits ≤ 64

/-- The window that a value needs by itself. -/
def ownWindow (x : Word) : SigWindow where
  leading := if 32 ≤ builtinClzll x then 31 else builtinClzll x
  sigbits := 64 - (if 32 ≤ builtinClzll x then 31 else builtinClzll x) - builtinCtzll x

/-- The writer keeps the cached window when the value lies inside it and a reset would not pay. -/
def keepsWindow (window : SigWindow) (x : Word) : Prop :=
  window.leading ≤ (ownWindow x).leading ∧
    (64 - window.leading - window.sigbits : Int) ≤ builtinCtzll x ∧
    window.sigbits ≤ 5 + 6 + (ownWindow x).sigbits

instance (window : SigWindow) (x : Word) : Decidable (keepsWindow window x) :=
  inferInstanceAs (Decidable (_ ∧ _))

def nextWindow (window : SigWindow) (x : Word) : SigWindow :=
  if x = 0#64 ∨ keepsWindow window x then window else ownWindow x

/-- The code word of a value difference. -/
def codeDouble (window : SigWindow) (x : Word) : List Bool :=
  if x = 0#64 then fieldBits 1 0#64
  else if keepsWindow window x then
    fieldBits 1 1#64 ++ (fieldBits 1 0#64 ++
      fieldBits window.sigbits (x >>> (64 - window.leading - window.sigbits)))
  else
    fieldBits 1 1#64 ++ (fieldBits 1 1#64 ++ (fieldBits 5 (BitVec.ofNat 64 (ownWindow x).leading) ++
      (fieldBits 6 (if (ownWindow x).sigbits = 64 then 0#64
          else BitVec.ofNat 64 (ownWindow x).sigbits) ++
        fieldBits (ownWindow x).sigbits (x >>> builtinCtzll x))))

/-- The lowest set bit of a non-zero word. -/
theorem builtinCtzll_spec (x : Word) (nonzero : x ≠ 0#64) :
    builtinCtzll x < 64 ∧ x.getLsbD (builtinCtzll x) = true ∧
      ∀ index, index < builtinCtzll x → x.getLsbD index = false := by
  have found : ∃ index, (List.range 64).find? x.getLsbD = some index := by
    apply Option.isSome_iff_exists.mp
    rw [List.find?_isSome]
    by_contra none
    push Not at none
    apply nonzero
    apply BitVec.eq_of_getLsbD_eq
    intro index inside
    simpa using none index (List.mem_range.mpr inside)
  obtain ⟨index, found⟩ := found
  have first := (List.find?_range_eq_some).mp found
  rw [builtinCtzll, found, Option.getD_some]
  refine ⟨by simpa using first.2.1, first.1, fun earlier below => ?_⟩
  simpa using first.2.2 earlier below

/-- The highest set bit of a non-zero word. -/
theorem builtinClzll_spec (x : Word) (nonzero : x ≠ 0#64) :
    builtinClzll x + builtinCtzll x ≤ 63 ∧ x.toNat < 2 ^ (64 - builtinClzll x) := by
  have positive : x.toNat ≠ 0 := fun zero => nonzero (BitVec.eq_of_toNat_eq (by simpa using zero))
  have top : x.toNat.log2 < 64 := (Nat.log2_lt positive).mpr x.isLt
  obtain ⟨_, lowest, _⟩ := builtinCtzll_spec x nonzero
  have low : 2 ^ builtinCtzll x ≤ x.toNat := Nat.ge_two_pow_of_testBit lowest
  have order : builtinCtzll x ≤ x.toNat.log2 := (Nat.le_log2 positive).mpr low
  refine ⟨by unfold builtinClzll; omega, ?_⟩
  rw [show 64 - builtinClzll x = x.toNat.log2 + 1 by unfold builtinClzll; omega]
  exact Nat.lt_log2_self

theorem ownWindow_spec (x : Word) (nonzero : x ≠ 0#64) :
    (ownWindow x).leading ≤ 31 ∧ 0 < (ownWindow x).sigbits ∧
      (ownWindow x).leading + (ownWindow x).sigbits + builtinCtzll x = 64 ∧
      x.toNat < 2 ^ (64 - (ownWindow x).leading) := by
  obtain ⟨zeros, bound⟩ := builtinClzll_spec x nonzero
  have smaller : (ownWindow x).leading ≤ builtinClzll x := by
    simp only [ownWindow]
    split <;> omega
  refine ⟨?_, ?_, ?_, lt_of_lt_of_le bound (Nat.pow_le_pow_right (by decide) (by omega))⟩ <;>
    simp only [ownWindow] <;> split <;> omega

/-- The significant bits of a value fit its own window. -/
theorem ownWindow_fits (x : Word) (nonzero : x ≠ 0#64) :
    (x >>> builtinCtzll x).toNat < 2 ^ (ownWindow x).sigbits := by
  obtain ⟨_, _, sum, bound⟩ := ownWindow_spec x nonzero
  rw [BitVec.toNat_ushiftRight, Nat.shiftRight_eq_div_pow]
  apply Nat.div_lt_of_lt_mul
  rw [← Nat.pow_add, show builtinCtzll x + (ownWindow x).sigbits = 64 - (ownWindow x).leading by omega]
  exact bound

theorem ownWindow_valid (x : Word) (nonzero : x ≠ 0#64) : (ownWindow x).Valid := by
  obtain ⟨leading, _, total, _⟩ := ownWindow_spec x nonzero
  exact ⟨leading, by omega⟩

theorem nextWindow_valid (window : SigWindow) (valid : window.Valid) (x : Word) :
    (nextWindow window x).Valid := by
  unfold nextWindow
  split
  · exact valid
  · rename_i reset
    exact ownWindow_valid x fun zero => reset (Or.inl zero)

/-- A kept window is not empty, because the value has a bit inside it. -/
theorem keepsWindow_spec (window : SigWindow) (valid : window.Valid) (x : Word)
    (nonzero : x ≠ 0#64) (keeps : keepsWindow window x) :
    0 < window.sigbits ∧ 64 - window.leading - window.sigbits ≤ builtinCtzll x ∧
      (x >>> (64 - window.leading - window.sigbits)).toNat < 2 ^ window.sigbits := by
  obtain ⟨leading, trailing, _⟩ := keeps
  obtain ⟨_, total⟩ := valid
  obtain ⟨small, _, _⟩ := builtinCtzll_spec x nonzero
  obtain ⟨_, _, _, bound⟩ := ownWindow_spec x nonzero
  refine ⟨by omega, by omega, ?_⟩
  rw [BitVec.toNat_ushiftRight, Nat.shiftRight_eq_div_pow]
  apply Nat.div_lt_of_lt_mul
  rw [← Nat.pow_add]
  exact lt_of_lt_of_le bound (Nat.pow_le_pow_right (by decide) (by omega))

/-- A shift past trailing zeros loses nothing. -/
theorem shiftRight_shiftLeft (x : Word) (count : Nat) (nonzero : x ≠ 0#64)
    (trailing : count ≤ builtinCtzll x) : (x >>> count) <<< count = x := by
  obtain ⟨_, _, zeros⟩ := builtinCtzll_spec x nonzero
  apply BitVec.eq_of_getLsbD_eq
  intro index inside
  rw [BitVec.getLsbD_shiftLeft, BitVec.getLsbD_ushiftRight]
  by_cases below : index < count
  · simp [below, zeros index (by omega)]
  · simp [below, inside, show count + (index - count) = index by omega]

/-- A value takes at most 77 bits. -/
theorem codeDouble_length_le (window : SigWindow) (valid : window.Valid) (x : Word) :
    (codeDouble window x).length ≤ 77 := by
  have inside := valid.2
  have own : (ownWindow x).sigbits ≤ 64 := by
    simp only [ownWindow]
    omega
  unfold codeDouble
  split
  · simp
  · split
    · simp only [List.length_append, fieldBits_length]
      omega
    · simp only [List.length_append, fieldBits_length]
      omega

end Menoetius
