import Menoetius.Globals
import Menoetius.Lib.BitField

/-
This file models `bitstream.c`. A buffer is the list of its whole 64-bit words.
-/

namespace Menoetius
open BitField

/-- Every `uint64_t`, `int64_t` and `double` is a 64-bit pattern. -/
abbrev Word := BitVec 64

/-- A writer keeps the bits it has stored when it fails midway. -/
abbrev BufM := EStateM Failure (List Word)

def bitMask (x : Nat) : Word :=
  if x = 64 then BitVec.allOnes 64 else (1#64 <<< x) - 1#64

/-- An access through `uint64_t*` must stay inside the buffer. -/
def loadWord (slot : Nat) : BufM Word := fun buf =>
  match buf[slot]? with
  | some word => .ok word buf
  | none => .error (.abort .memory) buf

def storeWord (slot : Nat) (word : Word) : BufM Unit := modify fun buf => buf.set slot word

/-- Both writers check the space up to the end of the last touched word. -/
def requiredBufSize (bitIndex numBits : Nat) : Nat :=
  let required := bitIndex + numBits
  let extraBits := required % 64
  if extraBits ≠ 0 then required + (64 - extraBits) else required

/-- The common tail of both writers. The shift is logical for `uint64_t` and arithmetic for
`int64_t`. -/
def bitstreamStore (shiftRight : Word → Nat → Word) (bitIndex numBits : Nat) (value : Word) :
    BufM Nat := do
  let vmask := bitMask numBits
  let i := bitIndex / 64
  let j := bitIndex % 64
  if j = 0 then
    let p ← loadWord i
    storeWord i ((p &&& ~~~vmask) ||| (value &&& vmask))
    pure (bitIndex + numBits)
  else
    let low := value <<< j
    let lowMask := vmask <<< j
    let high := shiftRight value (64 - j)
    let highMask := vmask >>> (64 - j)
    require (lowMask ≠ 0#64) .bitstreamLowMask
    let p ← loadWord i
    storeWord i ((p &&& ~~~lowMask) ||| (low &&& lowMask))
    if highMask ≠ 0#64 then
      let p ← loadWord (i + 1)
      storeWord (i + 1) ((p &&& ~~~highMask) ||| (high &&& highMask))
      pure (bitIndex + numBits)
    else
      pure (bitIndex + numBits)

def bitstreamWriteUint64 (bufSizeBits bitIndex numBits : Nat) (value : Word) : BufM Nat := do
  if requiredBufSize bitIndex numBits > bufSizeBits then
    throw (.code .bitstreamOutOfSpace)
  else
    require (numBits ≤ 64) .bitMask
    if value &&& ~~~(bitMask numBits) ≠ 0#64 then
      throw (.code .bitstreamBadValue)
    else
      bitstreamStore (· >>> ·) bitIndex numBits value

/-- The comparison with `-min_val` is unsigned, because `min_val` is a `uint64_t`. -/
def signedOutOfRange (numBits : Nat) (value : Word) : Prop :=
  numBits < 64 ∧
    if value.toInt < 0 then value < -(1#64 <<< (numBits - 1))
    else value &&& ~~~(bitMask (numBits - 1)) ≠ 0#64

instance (numBits : Nat) (value : Word) : Decidable (signedOutOfRange numBits value) :=
  inferInstanceAs (Decidable (_ ∧ _))

def bitstreamWriteInt64 (bufSizeBits bitIndex numBits : Nat) (value : Word) : BufM Nat := do
  if requiredBufSize bitIndex numBits > bufSizeBits then
    throw (.code .bitstreamOutOfSpace)
  else
    require (1 < numBits) .bitstreamSignedWidth
    require (numBits ≤ 64) .bitMask
    if signedOutOfRange numBits value then
      throw (.code .bitstreamBadValue)
    else
      bitstreamStore BitVec.sshiftRight bitIndex numBits value

def readWord (buf : List Word) (slot : Nat) : Except Failure Word :=
  match buf[slot]? with
  | some word => .ok word
  | none => .error (.abort .memory)

/-- The common part of both readers fetches the raw field. -/
def bitstreamFetch (buf : List Word) (bitIndex numBits : Nat) : Except Failure Word :=
  let vmask := bitMask numBits
  let i := bitIndex / 64
  let j := bitIndex % 64
  if j = 0 then
    (readWord buf i).map (· &&& vmask)
  else
    let lowMask := vmask <<< j
    let highMask := vmask >>> (64 - j)
    if lowMask = 0#64 then .error (.abort .bitstreamLowMask)
    else do
      let low ← (readWord buf i).map (· &&& lowMask)
      let high ← if highMask ≠ 0#64 then (readWord buf (i + 1)).map (· &&& highMask) else .ok 0#64
      return (low >>> j) ||| (high <<< (64 - j))

def bitstreamReadUint64 (buf : List Word) (bufSizeBits bitIndex numBits : Nat) :
    Except Failure Word :=
  if bitIndex + numBits > bufSizeBits then .error (.code .bitstreamOutOfSpace)
  else if 64 < numBits then .error (.abort .bitMask)
  else bitstreamFetch buf bitIndex numBits

/-- The mask is a 32-bit shift, whose count x86-64 reduces modulo 32, converted to `int64_t`. -/
def msbMask (numBits : Nat) : Word :=
  (1#32 <<< ((numBits - 1) % 32)).signExtend 64

/-- The sign extension runs for every aligned field, and for a straddling field below 64 bits. -/
def bitstreamReadInt64 (buf : List Word) (bufSizeBits bitIndex numBits : Nat) :
    Except Failure Word :=
  if bitIndex + numBits > bufSizeBits then .error (.code .bitstreamOutOfSpace)
  else if 64 < numBits then .error (.abort .bitMask)
  else do
    let value ← bitstreamFetch buf bitIndex numBits
    if (bitIndex % 64 = 0 ∨ numBits < 64) ∧ value &&& msbMask numBits ≠ 0#64 then
      return value ||| ~~~(bitMask numBits)
    else
      return value

/-- The mask selects the low bits. -/
theorem bitMask_getLsbD (x index : Nat) (inside : x ≤ 64) :
    (bitMask x).getLsbD index = decide (index < x) := by
  unfold bitMask
  split
  · rename_i full
    subst full
    rw [BitVec.getLsbD_allOnes]
  · have bound : 2 ^ x < 2 ^ 64 := Nat.pow_lt_pow_right (by decide) (by omega)
    have positive : 0 < 2 ^ x := Nat.two_pow_pos x
    have power : (1#64 <<< x - 1#64).toNat = 2 ^ x - 1 := by
      rw [BitVec.toNat_sub, BitVec.toNat_shiftLeft, Nat.shiftLeft_eq, BitVec.toNat_ofNat]
      omega
    rw [BitVec.getLsbD, power, Nat.testBit_two_pow_sub_one]

end Menoetius
