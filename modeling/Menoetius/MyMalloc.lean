import Menoetius.Bitstream
import Menoetius.Lib.ChunkMemory

/-
This file models the pool allocator of `my_malloc.c`.
-/

namespace Menoetius
open ChunkMemory FileImage

def minSize : Nat := 32

def minSizePow : Nat := 5

def numPools : Nat := 14

def noPool : Nat := 65535

/-- The chunks that `malloc` has handed out, and the array `pools`. -/
structure Heap where
  chunks : Chunks Word
  pools : Nat → Word

abbrev HeapM := EStateM Failure Heap

/-- The address of a new chunk and the bytes that are already in it are not known. -/
structure Choice where
  address : Word
  junk : Nat → UInt8

def Choice.bytes (choice : Choice) (n : Nat) : List UInt8 := (List.range n).map choice.junk

/-- `malloc` -/
def mallocChunk (choice : Choice) (n : Nat) : HeapM Word := do
  modify fun heap =>
    { heap with chunks := Function.update heap.chunks choice.address (some (choice.bytes n)) }
  return choice.address

/-- `free` -/
def freeChunk (q : Word) : HeapM Unit := do
  match (← get).chunks q with
  | none => throw (.abort .memory)
  | some _ => modify fun heap => { heap with chunks := Function.update heap.chunks q none }

/-- `realloc` keeps the first bytes of the chunk and perhaps its address. -/
def reallocChunk (choice : Choice) (q : Word) (n : Nat) : HeapM Word := do
  match (← get).chunks q with
  | none => throw (.abort .memory)
  | some bytes => do
      freeChunk q
      modify fun heap =>
        { heap with
          chunks := Function.update heap.chunks choice.address (some ((bytes ++ choice.bytes n).take n)) }
      return choice.address

/-- Eight bytes of the chunk at `q` are read as an integer or a pointer. -/
def chunkWord (q : Word) (start : Nat) : HeapM Word := do
  match (← get).chunks q with
  | none => throw (.abort .memory)
  | some bytes =>
      if start + 8 ≤ bytes.length then return BitVec.ofNat 64 (wordAt bytes start)
      else throw (.abort .memory)

/-- Bytes are written into the chunk at `q`. -/
def setChunkBytes (q : Word) (start : Nat) (data : List UInt8) : HeapM Unit := do
  match (← get).chunks q with
  | none => throw (.abort .memory)
  | some bytes =>
      if start + data.length ≤ bytes.length then
        modify fun heap =>
          { heap with chunks := Function.update heap.chunks q (some (writeAt bytes start data)) }
      else throw (.abort .memory)

def setChunkWord (q : Word) (start : Nat) (word : Word) : HeapM Unit :=
  setChunkBytes q start (LittleEndian.bytesOf 8 word.toNat)

/-- `memcpy` between the parts of two chunks behind their pool numbers. -/
def copyUsable (q p : Word) (n : Nat) : HeapM Unit := do
  match (← get).chunks p with
  | none => throw (.abort .memory)
  | some bytes =>
      if 8 + n ≤ bytes.length then setChunkBytes q 8 (readAt bytes 8 n) else throw (.abort .memory)

/-- `__builtin_clzll` of a `size_t` -/
def builtinClzllNat (x : Nat) : Nat := 63 - Nat.log2 x

/-- The exponent of the size to which `my_malloc` rounds a request, with room for the pool number. -/
def requestPow (n : Nat) : Nat :=
  let n := n + 8
  let n := if n < minSize then minSize else n
  64 - builtinClzllNat (n - 1)

/-- A new chunk starts with its pool number. -/
def newChunk (choice : Choice) (n i : Nat) : HeapM Word := do
  let p ← mallocChunk choice n
  setChunkWord p 0 (BitVec.ofNat 64 i)
  return p + 8

def myMalloc (choice : Choice) (n : Nat) : HeapM Word := do
  let pow := requestPow n
  let i := pow - minSizePow
  if i ≥ numPools then newChunk choice (2 ^ pow) noPool
  else do
    let p := (← get).pools i
    if p ≠ 0 then do
      let next ← chunkWord (p - 8) 8
      modify fun heap => { heap with pools := Function.update heap.pools i next }
      return p
    else newChunk choice (2 ^ pow) i

/-- The pool number of a chunk is read into an `int`. -/
def chunkPool (p : Word) : HeapM Int := do
  let word ← chunkWord (p - 8) 0
  return (word.setWidth 32).toInt

def myFree (p : Word) : HeapM Unit := do
  let i ← chunkPool p
  if i ≥ numPools then do
    require (i = noPool) .myFree
    freeChunk (p - 8)
  else do
    setChunkWord (p - 8) 8 ((← get).pools i.toNat)
    modify fun heap => { heap with pools := Function.update heap.pools i.toNat p }

/-- A pooled chunk is copied with the whole size of its pool. -/
def myRealloc (choice : Choice) (p : Word) (n : Nat) : HeapM Word := do
  let i ← chunkPool p
  if i ≥ numPools then do
    let q ← reallocChunk choice (p - 8) (n + 8)
    return q + 8
  else do
    let oldSize := 2 ^ (minSizePow + i.toNat)
    let q ← myMalloc choice n
    require (q ≠ 0) .myRealloc
    copyUsable (q - 8) (p - 8) oldSize
    myFree p
    return q

end Menoetius
