import Menoetius.Lib.FileImage
import Menoetius.Lib.LittleEndian

/-
This file models a memory of separate byte chunks, and linked lists that run through it.
-/

namespace ChunkMemory
open FileImage LittleEndian

/-- The chunks of a memory by their addresses. -/
abbrev Chunks (A : Type) := A → Option (List UInt8)

/-- The number in eight bytes of a chunk. -/
def wordAt (bytes : List UInt8) (start : Nat) : Nat := valueOf (readAt bytes start 8)

/-- The chunk with a number stored into eight of its bytes. -/
def putWordAt (bytes : List UInt8) (start value : Nat) : List UInt8 := writeAt bytes start (bytesOf 8 value)

theorem putWordAt_length {bytes : List UInt8} {start : Nat} (inside : start + 8 ≤ bytes.length) (value : Nat) :
    (putWordAt bytes start value).length = bytes.length :=
  writeAt_length bytes (bytesOf 8 value) start (by rwa [bytesOf_length])

/-- A read of what was written. -/
theorem readAt_writeAt_same (bytes data : List UInt8) (start : Nat) (inside : start + data.length ≤ bytes.length) :
    readAt (writeAt bytes start data) start data.length = data := by
  apply List.ext_getElem?
  intro position
  rw [readAt, List.getElem?_take, List.getElem?_drop, writeAt_getElem? _ _ _ (by omega)]
  by_cases within : position < data.length
  · rw [if_pos within, if_pos (by omega), Nat.add_sub_cancel_left]
  · rw [if_neg within, List.getElem?_eq_none (by omega)]

/-- A read in front of what was written. -/
theorem readAt_writeAt_before (bytes data : List UInt8) {low count start : Nat} (before : low + count ≤ start)
    (inside : start + data.length ≤ bytes.length) :
    readAt (writeAt bytes start data) low count = readAt bytes low count := by
  apply List.ext_getElem?
  intro position
  rw [readAt, readAt, List.getElem?_take, List.getElem?_take, List.getElem?_drop, List.getElem?_drop,
    writeAt_getElem? _ _ _ (by omega)]
  by_cases within : position < count
  · rw [if_pos within, if_pos within, if_neg (by omega)]
  · rw [if_neg within, if_neg within]

theorem wordAt_putWordAt {bytes : List UInt8} {start value : Nat} (inside : start + 8 ≤ bytes.length)
    (fits : value < 2 ^ 64) : wordAt (putWordAt bytes start value) start = value := by
  have read := readAt_writeAt_same bytes (bytesOf 8 value) start (by rwa [bytesOf_length])
  rw [bytesOf_length] at read
  rw [wordAt, putWordAt, read, valueOf_bytesOf_of_lt 8 value fits]

theorem wordAt_writeAt_before {bytes data : List UInt8} {low start : Nat} (before : low + 8 ≤ start)
    (inside : start + data.length ≤ bytes.length) : wordAt (writeAt bytes start data) low = wordAt bytes low := by
  rw [wordAt, readAt_writeAt_before bytes data before inside, wordAt]

/-- The word depends on the first bytes only. -/
theorem wordAt_take (bytes : List UInt8) {start count : Nat} (inside : start + 8 ≤ count) :
    wordAt (bytes.take count) start = wordAt bytes start := by
  rw [wordAt, wordAt, readAt, readAt, List.drop_take, List.take_take, Nat.min_eq_left (by omega)]

theorem wordAt_append {bytes : List UInt8} (more : List UInt8) {start : Nat} (inside : start + 8 ≤ bytes.length) :
    wordAt (bytes ++ more) start = wordAt bytes start := by
  rw [wordAt, wordAt, readAt, readAt, List.drop_append_of_le_length (by omega),
    List.take_append_of_le_length (by rw [List.length_drop]; omega)]

section Chain
variable {A : Type} {link link' : A → Option A} {null p : A} {members : List A}

/-- The members of a linked list from its first one to the null address. -/
inductive Chain (link : A → Option A) (null : A) : A → List A → Prop
  | nil : Chain link null null []
  | cons {p q : A} {rest : List A} (nonnull : p ≠ null) (next : link p = some q) (tail : Chain link null q rest) :
      Chain link null p (p :: rest)

/-- The list does not depend on the links of other addresses. -/
theorem Chain.congr (chain : Chain link null p members) (same : ∀ q ∈ members, link' q = link q) :
    Chain link' null p members := by
  induction chain with
  | nil => exact .nil
  | @cons p q rest nonnull next tail ih =>
      exact .cons nonnull ((same p List.mem_cons_self).trans next)
        (ih fun r member => same r (List.mem_cons_of_mem p member))

/-- A list with a first member has a link to the others. -/
theorem Chain.eq_cons (chain : Chain link null p members) (nonnull : p ≠ null) :
    ∃ q rest, members = p :: rest ∧ link p = some q ∧ Chain link null q rest := by
  cases chain with
  | nil => exact absurd rfl nonnull
  | @cons p q rest nonnull next tail => exact ⟨q, rest, rfl, next, tail⟩

theorem Chain.nonnull (chain : Chain link null p members) : ∀ q ∈ members, q ≠ null := by
  induction chain with
  | nil => simp
  | cons nonnull _ _ ih =>
      intro q member
      rcases List.mem_cons.mp member with rfl | later
      · exact nonnull
      · exact ih q later

end Chain

end ChunkMemory
