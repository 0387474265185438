import Mathlib.Tactic

/-
This file stores natural numbers as little-endian bytes.
-/

namespace LittleEndian

/-- The low bytes of a number, the least significant byte first. -/
def bytesOf : Nat → Nat → List UInt8
  | 0, _ => []
  | count + 1, value => UInt8.ofNat value :: bytesOf count (value / 256)

/-- The number that a byte string stands for. -/
def valueOf : List UInt8 → Nat
  | [] => 0
  | byte :: rest => byte.toNat + 256 * valueOf rest

@[simp] theorem bytesOf_length (count value : Nat) : (bytesOf count value).length = count := by
  induction count generalizing value with
  | zero => rfl
  | succ count ih => simp [bytesOf, ih]

/-- Reading the stored bytes back truncates the number to its width. -/
theorem valueOf_bytesOf (count value : Nat) :
    valueOf (bytesOf count value) = value % 256 ^ count := by
  induction count generalizing value with
  | zero => simp [bytesOf, valueOf, Nat.mod_one]
  | succ count ih =>
      rw [bytesOf, valueOf, ih, Nat.pow_succ', Nat.mod_mul]
      simp

theorem valueOf_bytesOf_of_lt (count value : Nat) (fits : value < 256 ^ count) :
    valueOf (bytesOf count value) = value := by
  rw [valueOf_bytesOf, Nat.mod_eq_of_lt fits]

theorem valueOf_lt (bytes : List UInt8) : valueOf bytes < 256 ^ bytes.length := by
  induction bytes with
  | nil => simp [valueOf]
  | cons byte rest ih =>
      have small := byte.toNat_lt
      rw [valueOf, List.length_cons, Nat.pow_succ']
      omega

/-- A byte string is determined by its length and its number. -/
theorem bytesOf_valueOf (bytes : List UInt8) : bytesOf bytes.length (valueOf bytes) = bytes := by
  induction bytes with
  | nil => rfl
  | cons byte rest ih =>
      have small := byte.toNat_lt
      have low : UInt8.ofNat (byte.toNat + 256 * valueOf rest) = byte := by
        apply UInt8.toNat_inj.mp
        rw [UInt8.toNat_ofNat']
        omega
      have high : (byte.toNat + 256 * valueOf rest) / 256 = valueOf rest := by omega
      rw [valueOf, List.length_cons, bytesOf, low, high, ih]

/-- Strings of one length that stand for one number are equal. -/
theorem valueOf_inj {first second : List UInt8} (length : first.length = second.length)
    (same : valueOf first = valueOf second) : first = second := by
  rw [← bytesOf_valueOf first, ← bytesOf_valueOf second, length, same]

/-- The complement of every byte is the complement of the number. -/
theorem valueOf_complement (bytes : List UInt8) :
    valueOf (bytes.map fun byte => ~~~ byte) + valueOf bytes + 1 = 256 ^ bytes.length := by
  induction bytes with
  | nil => rfl
  | cons byte rest ih =>
      have small := byte.toNat_lt
      have flipped : (~~~ byte).toNat = 255 - byte.toNat := UInt8.toNat_not byte
      rw [List.map_cons, valueOf, valueOf, List.length_cons, Nat.pow_succ, flipped]
      omega

end LittleEndian
