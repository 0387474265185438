import Mathlib.Tactic

/-
This file reads a list of machine words as one little-endian bit string.
-/

namespace BitField

/-- Each stream position selects one bit of one word. -/
def bitAt {w : Nat} (words : List (BitVec w)) (position : Nat) : Bool :=
  (words.getD (position / w) 0#w).getLsbD (position % w)

/-- The predicate records a bit string at one stream position. -/
def BitsAt {w : Nat} (words : List (BitVec w)) (start : Nat) (bits : List Bool) : Prop :=
  ∀ step bit, bits[step]? = some bit → bitAt words (start + step) = bit

/-- The field lists the low bits of a value, the least significant bit first. -/
def fieldBits {w : Nat} (width : Nat) (value : BitVec w) : List Bool :=
  (List.range width).map value.getLsbD

@[simp] theorem fieldBits_length {w : Nat} (width : Nat) (value : BitVec w) :
    (fieldBits width value).length = width := by
  simp [fieldBits]

theorem fieldBits_get {w : Nat} (width : Nat) (value : BitVec w) (step : Nat) :
    (fieldBits width value)[step]? = if step < width then some (value.getLsbD step) else none := by
  by_cases inside : step < width
  · simp [fieldBits, inside]
  · simp [fieldBits, inside]

/-- A one-bit field is the low bit of its value. -/
theorem fieldBits_one {w : Nat} (value : BitVec w) : fieldBits 1 value = [value.getLsbD 0] := rfl

@[simp] theorem bitsAt_nil {w : Nat} (words : List (BitVec w)) (start : Nat) :
    BitsAt words start [] := by
  simp [BitsAt]

/-- A bit string starts with its head bit. -/
theorem bitsAt_cons {w : Nat} (words : List (BitVec w)) (start : Nat) (bit : Bool)
    (rest : List Bool) :
    BitsAt words start (bit :: rest) ↔ bitAt words start = bit ∧ BitsAt words (start + 1) rest := by
  constructor
  · intro stored
    refine ⟨stored 0 bit rfl, fun step other selected => ?_⟩
    rw [show start + 1 + step = start + (step + 1) by omega]
    exact stored (step + 1) other selected
  · rintro ⟨head, tail⟩ step other selected
    cases step with
    | zero =>
        obtain rfl : bit = other := by simpa using selected
        exact head
    | succ step =>
        rw [show start + (step + 1) = start + 1 + step by omega]
        exact tail step other (by simpa using selected)

/-- A concatenated bit string splits at the end of its first part. -/
theorem bitsAt_append {w : Nat} (words : List (BitVec w)) (first second : List Bool)
    (start : Nat) :
    BitsAt words start (first ++ second) ↔
      BitsAt words start first ∧ BitsAt words (start + first.length) second := by
  induction first generalizing start with
  | nil => simp
  | cons bit rest ih =>
      rw [List.cons_append, bitsAt_cons, bitsAt_cons, ih, List.length_cons, and_assoc,
        show start + 1 + rest.length = start + (rest.length + 1) by omega]

/-- A stored bit string survives any change outside its range. -/
theorem bitsAt_of_agree {w : Nat} {before after : List (BitVec w)} {start : Nat} {bits : List Bool}
    (stored : BitsAt before start bits)
    (agree : ∀ position, start ≤ position → position < start + bits.length →
      bitAt after position = bitAt before position) : BitsAt after start bits := by
  intro step bit selected
  have inside : step < bits.length := (List.getElem?_eq_some_iff.mp selected).1
  rw [agree (start + step) (by omega) (by omega)]
  exact stored step bit selected

/-- The stored field exposes each bit of its value. -/
theorem bitAt_of_fieldBits {w : Nat} {words : List (BitVec w)} {start width : Nat}
    {value : BitVec w} (stored : BitsAt words start (fieldBits width value)) (step : Nat)
    (inside : step < width) : bitAt words (start + step) = value.getLsbD step := by
  apply stored
  rw [fieldBits_get, if_pos inside]

/-- A range that holds the bits of a value stores its field. -/
theorem bitsAt_fieldBits {w : Nat} {words : List (BitVec w)} {start width : Nat}
    {value : BitVec w}
    (same : ∀ step, step < width → bitAt words (start + step) = value.getLsbD step) :
    BitsAt words start (fieldBits width value) := by
  intro step bit selected
  rw [fieldBits_get] at selected
  split at selected
  · rename_i inside
    rw [same step inside]
    simpa using selected
  · simp at selected

/-- A word update changes the bits of that word only. -/
theorem bitAt_set {w : Nat} (words : List (BitVec w)) (slot : Nat) (value : BitVec w)
    (inside : slot < words.length) (position : Nat) :
    bitAt (words.set slot value) position =
      if position / w = slot then value.getLsbD (position % w) else bitAt words position := by
  unfold bitAt
  rw [List.getD_eq_getElem?_getD, List.getD_eq_getElem?_getD, List.getElem?_set]
  by_cases same : slot = position / w
  · rw [if_pos same, if_pos same.symm, if_pos inside, Option.getD_some]
  · rw [if_neg same, if_neg (Ne.symm same)]

/-- A value below the field bound has no bit beyond the field. -/
theorem getLsbD_of_lt {w : Nat} (value : BitVec w) (width position : Nat)
    (fits : value.toNat < 2 ^ width) (beyond : width ≤ position) :
    value.getLsbD position = false :=
  Nat.testBit_lt_two_pow (lt_of_lt_of_le fits (Nat.pow_le_pow_right (by decide) beyond))

/-- A value without bits beyond the field is below the field bound. -/
theorem toNat_lt_of_getLsbD {w : Nat} (value : BitVec w) (width : Nat)
    (beyond : ∀ position, width ≤ position → value.getLsbD position = false) :
    value.toNat < 2 ^ width := by
  apply Nat.lt_pow_two_of_testBit
  intro position above
  exact beyond position above

end BitField
