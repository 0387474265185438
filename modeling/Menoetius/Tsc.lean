import Menoetius.Bitstream
import Menoetius.Lib.LittleEndian

/-
This file models `tsc.c`, the codec of one compressed block of points.
-/

namespace Menoetius
open LittleEndian

/-- A point is a timestamp and the bit pattern of its value. -/
abbrev Point := Word × Word

def maxNumValidBits : Nat := 536870912

def tscHeaderSerializationSize : Nat := 30

/-- The memory behind `char* data`. The count is `TSC_NUM_PTS`, the words are the `uint64_t` view
of the bytes after it, and the rest are the bytes behind the last whole word. -/
structure TscData where
  numPts : Nat
  words : List Word
  rest : List UInt8
  deriving DecidableEq, Repr

def tscStartTime (data : TscData) : Word := data.words.getD 0 0#64

/-- The byte view of the words, in memory order. -/
def wordsOfBytes : Nat → List UInt8 → List Word
  | 0, _ => []
  | count + 1, bytes => BitVec.ofNat 64 (valueOf (bytes.take 8)) :: wordsOfBytes count (bytes.drop 8)

/-- The first bytes of a memory area, read as a block. -/
def TscData.ofBytes (dataLen : Nat) (bytes : List UInt8) : TscData where
  numPts := valueOf (bytes.take 4)
  words := wordsOfBytes ((dataLen - 4) / 8) (bytes.drop 4)
  rest := (bytes.drop (4 + 8 * ((dataLen - 4) / 8))).take ((dataLen - 4) % 8)

def TscData.toBytes (data : TscData) : List UInt8 :=
  bytesOf 4 data.numPts ++ data.words.flatMap (fun word => bytesOf 8 word.toNat) ++ data.rest

structure TscHeader where
  lastTimestamp : Word
  lastTimestampDelta : Word
  prevValue : Word
  numValidBits : Nat
  lastLeading : Nat
  lastSigbits : Nat
  data : TscData
  dataLen : Nat
  deriving DecidableEq, Repr

/-- The fresh buffer holds whatever the memory held before. -/
def tscInit (n : Nat) (memory : List UInt8) : Except Failure TscHeader :=
  if n * 8 > maxNumValidBits then .error (.code .tscUnknown)
  else if 0 < n ∧ n < 0xFFFFFFFF then
    .ok { lastTimestamp := 0#64, lastTimestampDelta := 0#64, prevValue := 0#64, numValidBits := 0
          lastLeading := 0, lastSigbits := 0
          data := { TscData.ofBytes n memory with numPts := 0 }, dataLen := n }
  else .error (.abort .tscInitSize)

def tscClear (p : TscHeader) : TscHeader :=
  { p with
    lastTimestamp := 0#64, lastTimestampDelta := 0#64, prevValue := 0#64, numValidBits := 0
    lastLeading := 0, lastSigbits := 0, data := { p.data with numPts := 0 } }

def tscIsClear (p : TscHeader) : Except Failure Bool :=
  if p.numValidBits ≠ 0 then .ok false
  else if p.lastTimestamp = 0#64 ∧ p.lastTimestampDelta = 0#64 ∧ p.data.numPts = 0 then .ok true
  else .error (.abort .tscIsClear)

def tscSerializeHeader (p : TscHeader) : List UInt8 :=
  bytesOf 8 p.lastTimestamp.toNat ++ bytesOf 8 p.lastTimestampDelta.toNat ++
    bytesOf 8 p.prevValue.toNat ++ bytesOf 4 p.numValidBits ++ bytesOf 1 p.lastLeading ++
    bytesOf 1 p.lastSigbits

def tscDeserializeHeader (p : TscHeader) (s : List UInt8) : TscHeader :=
  { p with
    lastTimestamp := BitVec.ofNat 64 (valueOf (s.take 8))
    lastTimestampDelta := BitVec.ofNat 64 (valueOf ((s.drop 8).take 8))
    prevValue := BitVec.ofNat 64 (valueOf ((s.drop 16).take 8))
    numValidBits := valueOf ((s.drop 24).take 4)
    lastLeading := valueOf ((s.drop 28).take 1)
    lastSigbits := valueOf ((s.drop 29).take 1) }

def tscLoadBlock (p : TscHeader) (s buf : List UInt8) : Except Failure TscHeader :=
  let p := tscDeserializeHeader (tscClear p) s
  if p.dataLen ≤ buf.length then .ok { p with data := TscData.ofBytes p.dataLen buf }
  else .error (.abort .tscLoadBlock)

/-- `__builtin_clzll`, for a non-zero argument. -/
def builtinClzll (x : Word) : Nat := 63 - x.toNat.log2

/-- `__builtin_ctzll`, for a non-zero argument. -/
def builtinCtzll (x : Word) : Nat := ((List.range 64).find? x.getLsbD).getD 64

def tscWriteInt64 (n bitIndex : Nat) (x : Word) : BufM Nat :=
  if x = 0#64 then
    bitstreamWriteUint64 n bitIndex 1 0#64
  else if -64 ≤ x.toInt ∧ x.toInt ≤ 63 then do
    let bitIndex ← bitstreamWriteUint64 n bitIndex 2 1#64
    bitstreamWriteInt64 n bitIndex 7 x
  else if -256 ≤ x.toInt ∧ x.toInt ≤ 255 then do
    let bitIndex ← bitstreamWriteUint64 n bitIndex 3 3#64
    bitstreamWriteInt64 n bitIndex 9 x
  else if -2048 ≤ x.toInt ∧ x.toInt ≤ 2047 then do
    let bitIndex ← bitstreamWriteUint64 n bitIndex 4 7#64
    bitstreamWriteInt64 n bitIndex 12 x
  else do
    let bitIndex ← bitstreamWriteUint64 n bitIndex 4 15#64
    bitstreamWriteInt64 n bitIndex 32 x

/-- The reader returns the value and the number of bits it has read. -/
def tscReadInt64 (buf : List Word) (n bitIndex : Nat) : Except Failure (Word × Nat) := do
  let x ← bitstreamReadUint64 buf n bitIndex 1
  if x = 0#64 then
    return (0#64, 1 + 0)
  else
    let x ← bitstreamReadUint64 buf n (bitIndex + 1) 1
    if x = 0#64 then
      let value ← bitstreamReadInt64 buf n (bitIndex + 2) 7
      return (value, 2 + 7)
    else
      let x ← bitstreamReadUint64 buf n (bitIndex + 2) 1
      if x = 0#64 then
        let value ← bitstreamReadInt64 buf n (bitIndex + 3) 9
        return (value, 3 + 9)
      else
        let x ← bitstreamReadUint64 buf n (bitIndex + 3) 1
        if x = 0#64 then
          let value ← bitstreamReadInt64 buf n (bitIndex + 4) 12
          return (value, 4 + 12)
        else
          let value ← bitstreamReadInt64 buf n (bitIndex + 4) 32
          return (value, 4 + 32)

/-- The writer returns the next position and the cached `last_leading` and `last_sigbits`. -/
def tscWriteDouble (n bitIndex : Nat) (x : Word) (lastLeading lastSigbits : Nat) :
    BufM (Nat × Nat × Nat) :=
  if x = 0#64 then do
    let bitIndex ← bitstreamWriteUint64 n bitIndex 1 0#64
    pure (bitIndex, lastLeading, lastSigbits)
  else do
    let bitIndex ← bitstreamWriteUint64 n bitIndex 1 1#64
    let leadingZeros := if 32 ≤ builtinClzll x then 31 else builtinClzll x
    let trailingZeros := builtinCtzll x
    let sigBits := 64 - leadingZeros - trailingZeros
    let lastTrailing : Int := 64 - lastLeading - lastSigbits
    let bitsIfReset := 5 + 6 + sigBits
    if lastLeading ≤ leadingZeros ∧ lastTrailing ≤ trailingZeros ∧ lastSigbits ≤ bitsIfReset then
      let bitIndex ← bitstreamWriteUint64 n bitIndex 1 0#64
      let bitIndex ← bitstreamWriteUint64 n bitIndex lastSigbits (x >>> lastTrailing.toNat)
      pure (bitIndex, lastLeading, lastSigbits)
    else
      let bitIndex ← bitstreamWriteUint64 n bitIndex 1 1#64
      require (leadingZeros ≤ 31) .tscLeadingZeros
      let bitIndex ← bitstreamWriteUint64 n bitIndex 5 (BitVec.ofNat 64 leadingZeros)
      require (0 < sigBits ∧ sigBits ≤ 64) .tscSigBits
      let bitIndex ←
        if sigBits = 64 then do
          let bitIndex ← bitstreamWriteUint64 n bitIndex 6 0#64
          require (leadingZeros = 0 ∧ trailingZeros = 0) .tscSigBits
          pure bitIndex
        else
          bitstreamWriteUint64 n bitIndex 6 (BitVec.ofNat 64 sigBits)
      let bitIndex ← bitstreamWriteUint64 n bitIndex sigBits (x >>> trailingZeros)
      pure (bitIndex, leadingZeros, sigBits)

/-- The reader returns the value, the number of bits it has read and the cached window. -/
def tscReadDouble (buf : List Word) (n bitIndex lastLeading lastSigbits : Nat) :
    Except Failure (Word × Nat × Nat × Nat) := do
  let x ← bitstreamReadUint64 buf n bitIndex 1
  if x = 0#64 then
    return (0#64, 1 + 0, lastLeading, lastSigbits)
  else
    let x ← bitstreamReadUint64 buf n (bitIndex + 1) 1
    if x = 0#64 then
      let lastTrailing : Int := 64 - lastSigbits - lastLeading
      let x ← bitstreamReadUint64 buf n (bitIndex + 2) lastSigbits
      return (x <<< lastTrailing.toNat, 1 + 1 + lastSigbits, lastLeading, lastSigbits)
    else
      let x ← bitstreamReadUint64 buf n (bitIndex + 2) 5
      let lastLeading := x.toNat
      let x ← bitstreamReadUint64 buf n (bitIndex + 2 + 5) 6
      let lastSigbits := if x = 0#64 then 64 else x.toNat
      let trailing : Int := 64 - lastSigbits - lastLeading
      let x ← bitstreamReadUint64 buf n (bitIndex + 2 + 5 + 6) lastSigbits
      return (x <<< trailing.toNat, 1 + 1 + 5 + 6 + lastSigbits, lastLeading, lastSigbits)

/-- The bit writers of `tsc_add` work on the words behind the point count. -/
def onBuf {α : Type} (writer : BufM α) : EStateM Failure TscHeader α := fun p =>
  match writer p.data.words with
  | .ok value words => .ok value { p with data := { p.data with words := words } }
  | .error failure words => .error failure { p with data := { p.data with words := words } }

/-- The last assignments of each successful branch of `tsc_add`. -/
def tscCommit (bitIndex lastLeading lastSigbits : Nat) (t delta y : Word) (numPts : Nat) :
    EStateM Failure TscHeader Unit := do
  modify fun p => { p with lastLeading := lastLeading, lastSigbits := lastSigbits }
  require (bitIndex ≤ maxNumValidBits) .tscNumValidBits
  modify fun p =>
    { p with
      numValidBits := bitIndex, lastTimestamp := t, lastTimestampDelta := delta, prevValue := y
      data := { p.data with numPts := numPts % 2 ^ 32 } }

/-- The subtraction of two `size_t` values wraps around. -/
@[irreducible] def sizeSub (a b : Nat) : Nat := (a + 2 ^ 64 - b) % 2 ^ 64

@[irreducible] def tscAdd (t y : Word) : EStateM Failure TscHeader Unit := do
  let p ← get
  let n := (p.dataLen - 4) * 8
  if sizeSub n p.numValidBits < 18 * 8 then
    throw (.code .tscOutOfSpace)
  else if p.data.numPts = 0 then
    let bitIndex ← onBuf (bitstreamWriteInt64 n p.numValidBits 64 t)
    let (bitIndex, lastLeading, lastSigbits) ←
      onBuf (tscWriteDouble n bitIndex y p.lastLeading p.lastSigbits)
    tscCommit bitIndex lastLeading lastSigbits t p.lastTimestampDelta y 1
  else if t.toInt ≤ p.lastTimestamp.toInt then
    throw (.code .outOfOrderTimestamp)
  else
    let tDelta := t - p.lastTimestamp
    let yXor := p.prevValue ^^^ y
    if p.data.numPts = 1 then
      let bitIndex ← onBuf (tscWriteInt64 n p.numValidBits tDelta)
      let (bitIndex, lastLeading, lastSigbits) ←
        onBuf (tscWriteDouble n bitIndex yXor p.lastLeading p.lastSigbits)
      tscCommit bitIndex lastLeading lastSigbits t tDelta y 2
    else
      let tDeltaDelta := tDelta - p.lastTimestampDelta
      let bitIndex ← onBuf (tscWriteInt64 n p.numValidBits tDeltaDelta)
      let (bitIndex, lastLeading, lastSigbits) ←
        onBuf (tscWriteDouble n bitIndex yXor p.lastLeading p.lastSigbits)
      tscCommit bitIndex lastLeading lastSigbits t tDelta y (p.data.numPts + 1)

structure TscIter where
  y : Word
  t : Word
  i : Nat
  r : Nat
  dt : Word
  lastLeading : Nat
  lastSigbits : Nat
  deriving DecidableEq, Repr

def tscIterInit : TscIter := ⟨0#64, 0#64, 0, 0, 0#64, 0, 0⟩

/-- The reader of `tsc_iter_next` does not know the length of its buffer. -/
def tscIterNumValidBits : Nat := 9999999999999

def tscIterNext (data : TscData) (iter : TscIter) : Except Failure TscIter :=
  let n := tscIterNumValidBits
  if data.numPts ≤ iter.i then .error (.code .tscIterDone)
  else if iter.i = 0 then do
    let t ← bitstreamReadInt64 data.words n iter.r 64
    let (y, numBitsRead, lastLeading, lastSigbits) ←
      tscReadDouble data.words n (iter.r + 64) iter.lastLeading iter.lastSigbits
    return { y := y, t := t, i := iter.i + 1, r := iter.r + 64 + numBitsRead, dt := 0#64
             lastLeading := lastLeading, lastSigbits := lastSigbits }
  else do
    let (t, numBitsRead) ← tscReadInt64 data.words n iter.r
    let r := iter.r + numBitsRead
    let (y, numBitsRead, lastLeading, lastSigbits) ←
      tscReadDouble data.words n r iter.lastLeading iter.lastSigbits
    return { y := iter.y ^^^ y, t := iter.t + (iter.dt + t), i := iter.i + 1, r := r + numBitsRead
             dt := iter.dt + t, lastLeading := lastLeading, lastSigbits := lastSigbits }

/-- The callers' loop runs the iterator until its first non-zero result. Each round reads one more
point, so the fuel of `tscIterRun` is never the reason to stop. -/
def tscIterLoop (data : TscData) : Nat → TscIter → List Point × Failure
  | 0, _ => ([], .code .tscIterDone)
  | fuel + 1, iter =>
      match tscIterNext data iter with
      | .error failure => ([], failure)
      | .ok iter =>
          let (points, failure) := tscIterLoop data fuel iter
          ((iter.t, iter.y) :: points, failure)

def tscIterRun (data : TscData) : List Point × Failure :=
  tscIterLoop data (data.numPts + 1) tscIterInit

end Menoetius
