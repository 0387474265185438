import Mathlib.Data.UInt
import Mathlib.Tactic

/-
This file gives the character classes of `ctype.h` in the C locale and the decimal numbers of `stdlib.h`.
-/

namespace Ctype

def isSpace (char : UInt8) : Bool := char == 32 || (9 ≤ char && char ≤ 13)

def isDigit (char : UInt8) : Bool := 48 ≤ char && char ≤ 57

def isAlpha (char : UInt8) : Bool := (65 ≤ char && char ≤ 90) || (97 ≤ char && char ≤ 122)

/-- The number that the leading digits spell. -/
def digitsValue (text : List UInt8) : Nat :=
  (text.takeWhile isDigit).foldl (fun number char => 10 * number + (char.toNat - 48)) 0

/-- `strtol` with base ten clamps to the range of a `long`. -/
def strtol (text : List UInt8) : Int :=
  match text.dropWhile isSpace with
  | 45 :: digits => max (-2 ^ 63) (-digitsValue digits)
  | 43 :: digits => min (2 ^ 63 - 1) (digitsValue digits)
  | digits => min (2 ^ 63 - 1) (digitsValue digits)

/-- `atoi` converts the `long` to an `int`. -/
def atoi (text : List UInt8) : BitVec 32 := BitVec.ofInt 32 (strtol text)

end Ctype
