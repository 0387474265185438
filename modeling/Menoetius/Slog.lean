import Menoetius.Bitstream
import Menoetius.HumanScan
import Menoetius.Lib.FileImage

/-
This file models the log lines of `log.c`.
-/

namespace Menoetius
open FileImage

/-- The codes that the functions for strings return. -/
inductive LogCode where
  | ok
  | outOfSpace
  deriving DecidableEq, Repr

/-- The buffer of a line, and the variables `buf_i` and `m` of `_slog_args`. All values that `buf_i` has
had are kept, the latest one first. -/
structure Slog where
  buf : List UInt8
  bufI : Int
  m : Int
  visited : List Int

abbrev SlogM := EStateM Failure Slog

/-- Bytes are written to an address relative to the buffer. -/
def putBuf (i : Int) (data : List UInt8) : SlogM Unit := do
  let s ← get
  if 0 ≤ i ∧ i.toNat + data.length ≤ s.buf.length then set { s with buf := writeAt s.buf i.toNat data }
  else throw (.abort .memory)

def setM (m : Int) : SlogM Unit := modify fun s => { s with m := m }

/-- `buf_i` is an `int`. -/
def moveBy (amount : Int) : SlogM Unit :=
  modify fun s =>
    { s with
      bufI := Int.bmod (s.bufI + amount) (2 ^ 32)
      visited := Int.bmod (s.bufI + amount) (2 ^ 32) :: s.visited }

/-- Only the characters in front of a NUL byte count. -/
def needsQuotes : List UInt8 → Bool
  | [] => false
  | c :: s => if c = 0 then false else if c = 32 || c = 34 then true else needsQuotes s

/-- The letter behind the backslash, for the characters that have one. A double quote has the letter of a
newline. -/
def escapeLetter (escapeDoublequote : Bool) (c : UInt8) : Option UInt8 :=
  if c = 92 then some 92
  else if c = 9 then some 116
  else if c = 10 then some 110
  else if c = 34 && escapeDoublequote then some 110
  else none

def isPlain (c : UInt8) : Bool := 32 ≤ c && c ≤ 126

def hexDigit (digit : Nat) : UInt8 := UInt8.ofNat (if digit < 10 then 48 + digit else 55 + digit)

/-- `sprintf` with the format `%02hhX` ends the text with a NUL byte. -/
def escapeHex (c : UInt8) : List UInt8 := [92, 120, hexDigit (c.toNat / 16), hexDigit (c.toNat % 16), 0]

/-- The function returns its code and the address behind the text. It does not move over a backslash and
its letter. -/
def escapeBinary (escapeDoublequote : Bool) : List UInt8 → Int → Int → SlogM (LogCode × Int)
  | [], buf, _ => return (.ok, buf)
  | c :: s, buf, bufSize =>
      match escapeLetter escapeDoublequote c with
      | some letter =>
          if bufSize ≤ 1 then return (.outOfSpace, buf)
          else do
            putBuf buf [92, letter]
            escapeBinary escapeDoublequote s buf bufSize
      | none =>
          if isPlain c then do
            putBuf buf [c]
            if bufSize - 1 = 0 then return (.outOfSpace, buf + 1)
            else escapeBinary escapeDoublequote s (buf + 1) (bufSize - 1)
          else if bufSize ≤ 4 then return (.outOfSpace, buf)
          else do
            putBuf buf (escapeHex c)
            escapeBinary escapeDoublequote s (buf + 4) (bufSize - 4)

/-- The second half of `append_quoted_string_n`, behind the opening quote. -/
def closeQuote (buf bufSize stop : Int) (err : LogCode) : SlogM LogCode := do
  require (bufSize - 1 ≥ stop - (buf + 1)) .appendQuotedString
  if bufSize - 1 - (stop - (buf + 1)) = 0 ∨ err = .outOfSpace then do
    setM (stop - buf)
    return .outOfSpace
  else do
    putBuf stop [34]
    setM (stop + 1 - buf)
    return .ok

/-- Without space, `*num_written` keeps its value. -/
def appendQuotedStringN (buf bufSize : Int) (s : List UInt8) (n : Int) : SlogM LogCode := do
  if bufSize ≤ 0 then return .ok
  else if needsQuotes (s.take n.toNat) = false then do
    let n := if n > bufSize then bufSize else n
    let (err, stop) ← escapeBinary false (s.take n.toNat) buf bufSize
    setM (stop - buf)
    return err
  else do
    putBuf buf [34]
    let (err, stop) ← escapeBinary true (s.take n.toNat) (buf + 1) (bufSize - 1)
    closeQuote buf bufSize stop err

/-- The `size_t` that `buf_size - buf_i` is. -/
def logRoom (bufSize : Nat) (bufI : Int) : Nat := (((bufSize : Int) - bufI) % 2 ^ 64).toNat

/-- The `int` that a `size_t` becomes as an argument. -/
def logInt (room : Nat) : Int := Int.bmod room (2 ^ 32)

/-- A string is appended, and `buf_i` moves by what `m` then is. -/
def slogString (bufSize : Nat) (s : List UInt8) (n : Int) : SlogM LogCode := do
  let bufI := (← get).bufI
  let err ← appendQuotedStringN bufI (logInt (logRoom bufSize bufI)) s n
  moveBy (← get).m
  return err

def snprintf (buf : Int) (size : Nat) (text : CString) : SlogM Unit :=
  if size = 0 then pure () else putBuf buf (text.bytes.take (size - 1) ++ [0])

/-- `strlen( buf + buf_i )` -/
def strlenBuf (bufI : Int) : SlogM Nat := do
  let s ← get
  if 0 ≤ bufI then ofExcept (strlen (s.buf.drop bufI.toNat)) else throw (.abort .memory)

/-- The text of a number or a pointer is printed, and `buf_i` moves by the length of what then stands there. -/
def slogPrint (bufSize : Nat) (text : CString) : SlogM Unit := do
  let bufI := (← get).bufI
  snprintf bufI (logRoom bufSize bufI) text
  let length ← strlenBuf bufI
  moveBy length

/-- The characters `ctx`. -/
def ctxKey : List UInt8 := [99, 116, 120]

/-- A key that does not fit is left out. -/
def slogKey (bufSize : Nat) (key : List UInt8) : SlogM Unit := do
  let bufI := (← get).bufI
  if logRoom bufSize bufI > key.length + 1 ∧ key ≠ ctxKey then do
    putBuf bufI key
    moveBy key.length
    putBuf (← get).bufI [61]
    moveBy 1
  else pure ()

def slogSpace (bufSize : Nat) : SlogM Unit := do
  let bufI := (← get).bufI
  if logRoom bufSize bufI > 1 then do
    putBuf bufI [32]
    moveBy 1
  else pure ()

/-- What `va_arg` reads. The format `*s` reads an `int` and a string. -/
inductive LogArg where
  | string (val : Option CString)
  | double (val : Word)
  | int (val : BitVec 32)
  | pointer (val : Word)
  | stringN (n : Int) (val : List UInt8)
  | context (texts : List CString)

inductive LogFormat where
  | string
  | double
  | int
  | pointer
  | stringN
  | context

/-- The format of a value, where only the key `ctx` allows other texts. -/
def logFormat (key valFmt : List UInt8) : Option LogFormat :=
  if valFmt = [115] then some .string
  else if valFmt = [102] then some .double
  else if valFmt = [100] then some .int
  else if valFmt = [112] then some .pointer
  else if valFmt = [42, 115] then some .stringN
  else if key = ctxKey then some .context
  else none

/-- A text that the C library prints. It counts the characters in an `int`. -/
structure PrintedText extends CString where
  short : bytes.length < 2 ^ 31

/-- The last decimal digits of a number, without leading zeros. -/
def decimalDigits : Nat → Nat → List UInt8
  | 0, _ => []
  | count + 1, n =>
      if n < 10 then [UInt8.ofNat (48 + n)] else decimalDigits count (n / 10) ++ [UInt8.ofNat (48 + n % 10)]

theorem decimalDigits_length (count n : Nat) : (decimalDigits count n).length ≤ count := by
  induction count generalizing n with
  | zero => exact le_refl _
  | succ count ih =>
      rw [decimalDigits]
      split
      · simp
      · have fewer := ih (n / 10)
        rw [List.length_append, List.length_singleton]
        omega

/-- The format `%d` needs ten digits at most. -/
def intText (val : BitVec 32) : PrintedText where
  toCString := CString.at ((if val.toInt < 0 then [45] else []) ++ decimalDigits 10 val.toInt.natAbs)
  short := by
    have digits := decimalDigits_length 10 val.toInt.natAbs
    have sign : (if val.toInt < 0 then [(45 : UInt8)] else []).length ≤ 1 := by split <;> simp
    have kept := (List.takeWhile_sublist (fun byte : UInt8 => byte != 0)
      (l := (if val.toInt < 0 then [45] else []) ++ decimalDigits 10 val.toInt.natAbs)).length_le
    rw [List.length_append] at kept
    exact (kept.trans (by omega : _ ≤ 11)).trans_lt (by decide)

/-- The text `<NULL>` -/
def nullText : CString := CString.at [60, 78, 85, 76, 76, 62]

/-- The text `msg=` -/
def msgText : CString := CString.at [109, 115, 103, 61]

section Args
variable (doubleText pointerText : Word → PrintedText)

/-- The length that `strlen` returns is passed on as an `int`. -/
def slogText (bufSize : Nat) (s : CString) : SlogM LogCode :=
  slogString bufSize s.bytes (Int.bmod s.bytes.length (2 ^ 32))

/-- One value is read and appended. The other arguments are returned. -/
def slogValue (bufSize : Nat) : LogFormat → List LogArg → SlogM (LogCode × List LogArg)
  | .string, .string val :: arguments => do
      let err ← slogText bufSize (val.getD nullText)
      return (err, arguments)
  | .double, .double val :: arguments => do
      slogPrint bufSize (doubleText val).toCString
      return (.ok, arguments)
  | .int, .int val :: arguments => do
      slogPrint bufSize (intText val).toCString
      return (.ok, arguments)
  | .pointer, .pointer val :: arguments => do
      slogPrint bufSize (pointerText val).toCString
      return (.ok, arguments)
  | .stringN, .stringN n val :: arguments => do
      setM 0
      let err ← slogString bufSize val n
      return (err, arguments)
  | .context, .context texts :: arguments => do
      texts.forM (slogPrint bufSize)
      return (.ok, arguments)
  | _, _ => throw (.abort .vaArg)

/-- The characters of a key in front of its equal sign, and the rest from that sign on. -/
def keyChars : List UInt8 → Option (List UInt8 × List UInt8)
  | [] => none
  | c :: p =>
      if c = 32 then none
      else if c = 61 then some ([], c :: p)
      else (keyChars p).map fun (key, rest) => (c :: key, rest)

def tokenizeKey (s : List UInt8) : Option (List UInt8 × List UInt8) :=
  match keyChars (s.dropWhile fun c => c == 32 || c == 9) with
  | some ([], _) => none
  | found => found

def tokenizeValueFmt (s : List UInt8) : Option (List UInt8 × List UInt8) :=
  match s.takeWhile fun c => c != 32 with
  | [] => none
  | valFmt => some (valFmt, s.dropWhile fun c => c != 32)

/-- The loop over the items of the format. It returns the rest of the format, or nothing when the space has run
out. Each turn consumes a part of the format. The lengths of its tokens are of the type `int`. -/
def slogItems (bufSize : Nat) : Nat → List UInt8 → List LogArg → SlogM (Option (List UInt8))
  | 0, _, _ => throw (.abort .slogFormat)
  | turns + 1, p, arguments =>
      match tokenizeKey p with
      | none => return some p
      | some (key, p) =>
          match tokenizeValueFmt p.tail with
          | none => throw (.abort .slogValueFmt)
          | some (valFmt, p) => do
              require (key.length < 2 ^ 31 ∧ valFmt.length < 2 ^ 31) .memory
              slogKey bufSize key
              match logFormat key valFmt with
              | none => throw (.abort .slogFormat)
              | some format => do
                  let (err, arguments) ← slogValue doubleText pointerText bufSize format arguments
                  if err = .outOfSpace then return none
                  else do
                    slogSpace bufSize
                    slogItems bufSize turns p arguments

/-- The rest of the format is the message. -/
def slogMessage (bufSize : Nat) (p : List UInt8) : SlogM Unit := do
  let message := CString.at (p.dropWhile fun c => c == 32)
  if message.bytes = [] then pure ()
  else do
    let _ ← slogText bufSize msgText
    let _ ← slogText bufSize message

/-- The newline and the NUL byte go into the two bytes that were set aside. -/
def slogEnd (bufSize : Nat) : SlogM Unit := do
  let bufI := (← get).bufI
  require (Int.bmod (bufI + 1) (2 ^ 32) % 2 ^ 64 < bufSize + 2) .slogEnd
  putBuf bufI [10]
  putBuf (Int.bmod (bufI + 1) (2 ^ 32)) [0]

/-- The line ends without its message when the space has run out. -/
def slogFinish (bufSize : Nat) : Option (List UInt8) → SlogM Nat
  | none => do
      slogEnd bufSize
      return 1
  | some p => do
      slogMessage bufSize p
      slogEnd bufSize
      return 0

/-- `_slog_args` sets two bytes aside for the newline and the NUL byte. -/
def slogArgs (bufSize : Nat) (fmt : CString) (arguments : List LogArg) : SlogM Nat := do
  if bufSize ≤ 2 then return 1
  else do
    let rest ← slogItems doubleText pointerText (bufSize - 2) (fmt.bytes.length + 1) fmt.bytes arguments
    slogFinish (bufSize - 2) rest

end Args

end Menoetius
