import Menoetius.Slog

/-
This file lays out a log line without its buffer, and says where a line gets into trouble.
-/

namespace Menoetius
open FileImage

/-- A write position, and the last count of characters if there is one. -/
structure Spot where
  pos : Nat
  m : Option Nat

/-- How far `escape_binary` moves in some space, and with which code. -/
def escapedCount (escapeDoublequote : Bool) : List UInt8 → Nat → LogCode × Nat
  | [], _ => (.ok, 0)
  | c :: s, size =>
      match escapeLetter escapeDoublequote c with
      | some _ => if size ≤ 1 then (.outOfSpace, 0) else escapedCount escapeDoublequote s size
      | none =>
          if isPlain c then
            if size = 1 then (.outOfSpace, 1)
            else ((escapedCount escapeDoublequote s (size - 1)).1, (escapedCount escapeDoublequote s (size - 1)).2 + 1)
          else if size ≤ 4 then (.outOfSpace, 0)
          else ((escapedCount escapeDoublequote s (size - 4)).1, (escapedCount escapeDoublequote s (size - 4)).2 + 4)

/-- How many characters a string takes in some space, with its quotes. -/
def stringCount (chars : List UInt8) (size : Nat) : LogCode × Nat :=
  if needsQuotes chars = false then escapedCount false (chars.take size) size
  else if size - 1 - (escapedCount true chars (size - 1)).2 = 0 ∨
      (escapedCount true chars (size - 1)).1 = .outOfSpace then
    (.outOfSpace, (escapedCount true chars (size - 1)).2 + 1)
  else (.ok, (escapedCount true chars (size - 1)).2 + 2)

/-- A quoted string starts in the last byte of the space, and its first character needs no escape. -/
def OverrunsQuote (size : Int) (chars : List UInt8) : Prop :=
  size = 1 ∧ needsQuotes chars = true ∧ ∃ c ∈ chars.head?, escapeLetter true c = none ∧ isPlain c = true

namespace Spot

/-- The `int` that `append_quoted_string_n` takes for its space. -/
def size (bufSize : Nat) (spot : Spot) : Int := logInt (bufSize - spot.pos)

/-- Without space, a string counts as many characters as the last one. That one must have counted none, unless the space
of a buffer of 2 GiB or more is only a negative `int`. Otherwise, its quote must not take the last byte. -/
def Fits (bufSize : Nat) (spot : Spot) (chars : List UInt8) : Prop :=
  if spot.size bufSize ≤ 0 then spot.m = some 0 ∨ 2 ^ 31 ≤ bufSize ∧ ∃ k ∈ spot.m, spot.pos + k ≤ bufSize
  else ¬ OverrunsQuote (spot.size bufSize) chars

/-- The code and the spot behind a string. -/
def string (bufSize : Nat) (spot : Spot) (chars : List UInt8) : LogCode × Spot :=
  if spot.size bufSize ≤ 0 then (.ok, ⟨spot.pos + spot.m.getD 0, spot.m⟩)
  else ((stringCount chars (spot.size bufSize).toNat).1,
    ⟨spot.pos + (stringCount chars (spot.size bufSize).toNat).2,
      some (stringCount chars (spot.size bufSize).toNat).2⟩)

def key (bufSize : Nat) (spot : Spot) (key : List UInt8) : Spot :=
  if bufSize - spot.pos > key.length + 1 ∧ key ≠ ctxKey then ⟨spot.pos + (key.length + 1), spot.m⟩ else spot

/-- A printed text leaves one byte of the space. -/
def print (bufSize : Nat) (spot : Spot) (text : CString) : Spot :=
  ⟨spot.pos + min text.bytes.length (bufSize - spot.pos - 1), spot.m⟩

def space (bufSize : Nat) (spot : Spot) : Spot :=
  if bufSize - spot.pos > 1 then ⟨spot.pos + 1, spot.m⟩ else spot

/-- The position is an `int`. -/
def IsInt (spot : Spot) : Prop := spot.pos < 2 ^ 31

end Spot

/-- The characters of a string that the `int` of its length counts. -/
def stringChars (s : CString) : List UInt8 := s.bytes.take (Int.bmod s.bytes.length (2 ^ 32)).toNat

/-- The value of an item. The memory of a counted string holds all of its characters. -/
inductive LogValue where
  | string (val : Option CString)
  | double (val : Word)
  | int (val : BitVec 32)
  | pointer (val : Word)
  | stringN (n : Int) (val : List UInt8) (covered : n ≤ val.length)

/-- A key of a format is a word without an equal sign. -/
structure LogItem where
  key : List UInt8
  value : LogValue
  nonempty : key ≠ []
  plain : ∀ c ∈ key, c ≠ 0 ∧ c ≠ 32 ∧ c ≠ 61
  start : key.head? ≠ some 9

section Layout
variable (doubleText pointerText : Word → PrintedText) (bufSize : Nat)

/-- A string fits, and a number has space for its NUL byte. -/
def LogValue.Fits (spot : Spot) : LogValue → Prop
  | .string val => spot.Fits bufSize (stringChars (val.getD nullText))
  | .stringN n val _ => (⟨spot.pos, some 0⟩ : Spot).Fits bufSize (val.take n.toNat)
  | _ => spot.pos < bufSize

/-- The code and the spot behind a value. -/
def LogValue.next (spot : Spot) : LogValue → LogCode × Spot
  | .string val => spot.string bufSize (stringChars (val.getD nullText))
  | .double val => (.ok, spot.print bufSize (doubleText val).toCString)
  | .int val => (.ok, spot.print bufSize (intText val).toCString)
  | .pointer val => (.ok, spot.print bufSize (pointerText val).toCString)
  | .stringN n val _ => (⟨spot.pos, some 0⟩ : Spot).string bufSize (val.take n.toNat)

/-- The line ends at a position with an `int` behind it. -/
def Spot.Ends (spot : Spot) : Prop := spot.pos + 1 < 2 ^ 31

/-- The prefix and the text of the message fit. -/
def MessageFits (message : CString) (spot : Spot) : Prop :=
  if message.bytes = [] then spot.Ends
  else
    let middle := (spot.string bufSize (stringChars msgText)).2
    let stop := (middle.string bufSize (stringChars message)).2
    (spot.Fits bufSize (stringChars msgText) ∧ middle.IsInt) ∧
      (middle.Fits bufSize (stringChars message) ∧ stop.IsInt) ∧ stop.Ends

/-- Every item of the line and its message fit where they start. -/
def LineFits (message : CString) : List LogItem → Spot → Prop
  | [], spot => MessageFits bufSize message spot
  | item :: items, spot =>
      let start := spot.key bufSize item.key
      let stop := item.value.next doubleText pointerText bufSize start
      start.IsInt ∧ (item.value.Fits bufSize start ∧ stop.2.IsInt) ∧
        if stop.1 = .outOfSpace then stop.2.Ends
        else (stop.2.space bufSize).IsInt ∧ LineFits message items (stop.2.space bufSize)

end Layout

theorem escapedCount_le {escapeDoublequote : Bool} (chars : List UInt8) {size : Nat} (room : 1 ≤ size) :
    (escapedCount escapeDoublequote chars size).2 ≤ size ∧
      ((escapedCount escapeDoublequote chars size).1 = .ok → (escapedCount escapeDoublequote chars size).2 < size) := by
  induction chars generalizing size with
  | nil => exact ⟨Nat.zero_le _, fun _ => room⟩
  | cons c chars ih =>
      rw [escapedCount]
      cases escapeLetter escapeDoublequote c with
      | some letter =>
          dsimp only
          split
          · simp
          · exact ih room
      | none =>
          dsimp only
          split
          · split
            · simp
              omega
            · have later := @ih (size - 1) (by omega)
              exact ⟨by dsimp only; omega, fun ok => by have := later.2 ok; dsimp only; omega⟩
          · split
            · simp
            · have later := @ih (size - 4) (by omega)
              exact ⟨by dsimp only; omega, fun ok => by have := later.2 ok; dsimp only; omega⟩

/-- Without space, a first character that needs an escape does not fit. -/
theorem escapedCount_zero {chars : List UInt8} (quoted : needsQuotes chars = true)
    (fits : ¬ OverrunsQuote 1 chars) : escapedCount true chars 0 = (.outOfSpace, 0) := by
  cases chars with
  | nil => cases quoted
  | cons c chars =>
      rw [escapedCount]
      cases letter : escapeLetter true c with
      | some letter => rfl
      | none =>
          have special : isPlain c = false := by
            by_contra plain
            exact fits ⟨rfl, quoted, c, rfl, letter, by simpa using plain⟩
          simp [special]

theorem stringCount_le {chars : List UInt8} {size : Nat} (room : 1 ≤ size) (fits : ¬ OverrunsQuote size chars) :
    (stringCount chars size).2 ≤ size := by
  rw [stringCount]
  split
  · exact (escapedCount_le _ room).1
  · rename_i quotes
    have quoted : needsQuotes chars = true := by simpa using quotes
    by_cases last : size = 1
    · subst last
      rw [escapedCount_zero quoted fits]
      decide
    · have inner := @escapedCount_le true chars (size - 1) (show 1 ≤ size - 1 by omega)
      split
      · dsimp only
        omega
      · rename_i more
        simp only [not_or] at more
        dsimp only
        omega

end Menoetius
