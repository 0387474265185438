import Menoetius.Lfm
import Menoetius.Lib.Ctype

/-
This file models the scanner of `lfm_human_parser.c`. A pointer into a string is the memory from
there on, and a read behind that memory stops the process.
-/

namespace Menoetius
open Ctype

/-- The tokens of the scanner, with their literals. -/
inductive HumanToken where
  | eof
  | identifier (lit : CString)
  | quotedString (lit : CString)
  | openBrace
  | closeBrace
  | comma
  | equal
  | atSign
  | int (lit : CString)
  | float (lit : CString)
  | timestamp (lit : CString)
  deriving DecidableEq

/-- The counters of the scanner are of the type `int`. -/
def needInt (n : Nat) : Except Failure Unit := if n < 2 ^ 31 then return () else throw (.abort .memory)

def isIdentStart (c : UInt8) : Bool := isAlpha c || c == 95

def isIdentChar (c : UInt8) : Bool := isAlpha c || isDigit c || c == 95

/-- The loop of `scanIdent` splits the memory where the identifier ends. -/
def identChars : List UInt8 → Except Failure (List UInt8 × List UInt8)
  | [] => throw (.abort .stringEnd)
  | c :: s =>
      if isIdentChar c then do
        let (chars, s) ← identChars s
        return (c :: chars, s)
      else return ([], c :: s)

/-- The literal has room for the NUL byte. -/
def scanIdent : List UInt8 → Except Failure (CString × List UInt8)
  | [] => throw (.abort .stringEnd)
  | c :: s =>
      if isIdentStart c then do
        let (chars, s) ← identChars s
        needInt (chars.length + 2)
        return (CString.at (c :: chars), s)
      else throw (.code (.res 1))

/-- `strlen` reads up to the first NUL byte. -/
def strlen : List UInt8 → Except Failure Nat
  | [] => throw (.abort .stringEnd)
  | c :: s =>
      if c = 0 then return 0
      else do
        let length ← strlen s
        return length + 1

/-- The statement `t[j++] = c` needs room in the buffer. -/
def putChar (room : Nat) (t : List UInt8) (c : UInt8) : Except Failure (List UInt8) :=
  if t.length < room then return t ++ [c] else throw (.abort .memory)

/-- The loop of `scanQuotedString` copies the string without its escapes, from its place `i` on. -/
def quotedChars (room : Nat) : Nat → List UInt8 → List UInt8 → Except Failure (List UInt8 × List UInt8)
  | _, _, [] => throw (.abort .stringEnd)
  | i, t, c :: s =>
      if c = 0 then throw (.code (.res 1))
      else if c = 34 then do
        needInt (i + 1)
        let t ← putChar room t 0
        return (t, s)
      else if c = 92 then do
        needInt (i + 1)
        match s with
        | [] => throw (.abort .stringEnd)
        | escaped :: s => do
            let t ← putChar room t escaped
            needInt (i + 2)
            quotedChars room (i + 2) t s
      else do
        let t ← putChar room t c
        needInt (i + 1)
        quotedChars room (i + 1) t s

def scanQuotedString : List UInt8 → Except Failure (CString × List UInt8)
  | [] => throw (.abort .stringEnd)
  | c :: s =>
      if c = 34 then do
        let length ← strlen (c :: s)
        let (t, s) ← quotedChars (length + 1) 1 [] s
        return (CString.at t, s)
      else throw (.code (.res 1))

/-- The variables of the loop in `scanNumberOrTimestamp`. -/
structure NumberScan where
  i : Nat
  decimalFound : Bool
  hyphensFound : Nat
  tFound : Bool
  colonsFound : Nat

/-- One character that does not end the number. An unknown character is counted and kept. -/
def numberChar (n : NumberScan) (c : UInt8) : Except Failure NumberScan :=
  if c = 46 then
    if n.decimalFound ∨ n.hyphensFound ≠ 0 then throw (.code (.res 1))
    else return { n with decimalFound := true, i := n.i + 1 }
  else if c = 45 then
    if n.decimalFound then throw (.code (.res 1))
    else if n.hyphensFound = 0 ∧ n.i = 4 ∨ n.hyphensFound = 1 ∧ n.i = 7 then
      return { n with hyphensFound := n.hyphensFound + 1, i := n.i + 1 }
    else throw (.code (.res 1))
  else if c = 84 then
    if n.tFound ∨ n.i ≠ 10 ∨ n.hyphensFound ≠ 2 then throw (.code (.res 1))
    else return { n with tFound := true, i := n.i + 1 }
  else if c = 58 then
    if n.decimalFound ∨ ¬ n.tFound then throw (.code (.res 1))
    else if n.colonsFound = 0 ∧ n.i = 13 ∨ n.colonsFound = 1 ∧ n.i = 16 then
      return { n with colonsFound := n.colonsFound + 1, i := n.i + 1 }
    else throw (.code (.res 1))
  else return { n with i := n.i + 1 }

/-- One turn of the loop, which counts the character. -/
def numberStep (n : NumberScan) (c : UInt8) : Except Failure NumberScan := do
  let n ← numberChar n c
  needInt n.i
  return n

/-- The characters that end a number. -/
def endsNumber (c : UInt8) : Bool := c == 32 || c == 0 || c == 64

/-- The loop of `scanNumberOrTimestamp` splits the memory where the number ends. -/
def numberChars (n : NumberScan) : List UInt8 → Except Failure (NumberScan × List UInt8 × List UInt8)
  | [] => throw (.abort .stringEnd)
  | c :: s =>
      if endsNumber c then return (n, [], c :: s)
      else do
        let n ← numberStep n c
        let (n, chars, s) ← numberChars n s
        return (n, c :: chars, s)

/-- The kind of a number that the loop has read. -/
def numberToken (n : NumberScan) (lit : CString) : Except Failure HumanToken :=
  if n.decimalFound then return .float lit
  else if n.hyphensFound ≠ 0 ∨ n.tFound ∨ n.colonsFound ≠ 0 then
    if n.hyphensFound ≠ 2 ∨ ¬ n.tFound ∨ n.colonsFound ≠ 2 then throw (.code (.res 1))
    else if n.i ≠ 19 then throw (.code (.res 1))
    else return .timestamp lit
  else return .int lit

def scanNumberOrTimestamp (s : List UInt8) : Except Failure (HumanToken × List UInt8) := do
  let (n, chars, s) ← numberChars ⟨0, false, 0, false, 0⟩ s
  let token ← numberToken n (CString.at chars)
  needInt (n.i + 1)
  return (token, s)

/-- The tokens of a single character. -/
def charToken (c : UInt8) : Option HumanToken :=
  if c = 0 then some .eof
  else if c = 123 then some .openBrace
  else if c = 125 then some .closeBrace
  else if c = 44 then some .comma
  else if c = 61 then some .equal
  else if c = 64 then some .atSign
  else none

/-- `scan` skips the blanks and reads one token. -/
def scan : List UInt8 → Except Failure (HumanToken × List UInt8)
  | [] => throw (.abort .stringEnd)
  | c :: s =>
      if c = 32 then scan s
      else if isIdentStart c then do
        let (lit, s) ← scanIdent (c :: s)
        return (.identifier lit, s)
      else if isDigit c then scanNumberOrTimestamp (c :: s)
      else if c = 34 then do
        let (lit, s) ← scanQuotedString (c :: s)
        return (.quotedString lit, s)
      else
        match charToken c with
        | some token => return (token, s)
        | none => throw (.code (.res 1))

end Menoetius
