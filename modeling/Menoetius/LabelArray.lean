import Menoetius.Lfm
import Menoetius.MyMalloc

/-
This file models the array of labels of `lfm.c` in the memory of the allocator.
-/

namespace Menoetius
open ChunkMemory

/-- A pointer into a chunk. -/
structure ChunkPointer where
  chunk : Word
  start : Nat

/-- `struct LFM`, with the size in bytes that was last requested for `labels`. -/
structure LabelArray where
  name : Word
  labels : ChunkPointer
  numLabels : Nat
  maxNumLabels : Nat
  requested : Nat

/-- A label set and the memory that its array is in. -/
structure LabelState where
  heap : Heap
  lfm : LabelArray

abbrev LabelM := EStateM Failure LabelState

def onHeap {α : Type} (action : HeapM α) : LabelM α := fun state =>
  match action state.heap with
  | .ok value after => .ok value { state with heap := after }
  | .error failure after => .error failure { state with heap := after }

/-- `sizeof( struct KeyValue )`, which is that of two pointers. -/
def keyValueSize : Nat := 16

namespace LabelArray

/-- `lfm_new` with the request for its array. The pointer of `my_malloc` lies behind the pool number of a chunk. -/
def lfmNew (choice : Choice) (name : Word) : HeapM LabelArray := do
  let labels ← myMalloc choice (keyValueSize * 64)
  return { name, labels := ⟨labels - 8, 8⟩, numLabels := 0, maxNumLabels := 64, requested := keyValueSize * 64 }

/-- The first part of `lfm_add_label_unsorted`. A number of labels that is no `int` is not defined. -/
def growLabels (realloc : Choice → ChunkPointer → Nat → HeapM ChunkPointer) (choice : Choice) : LabelM Unit := do
  let lfm := (← get).lfm
  require (0 < lfm.maxNumLabels) .lfmAddLabel
  let maxNumLabels := lfm.maxNumLabels * 2
  require (maxNumLabels < 2 ^ 31) .memory
  -- The size of the request is the number of labels.
  modify fun state => { state with lfm := { lfm with maxNumLabels, requested := maxNumLabels } }
  let labels ← onHeap (realloc choice lfm.labels maxNumLabels)
  modify fun state => { state with lfm := { state.lfm with labels } }

/-- The second part of `lfm_add_label_unsorted` writes the two pointers of the label behind the others. -/
def storeLabel (key value : Word) : LabelM Unit := do
  let lfm := (← get).lfm
  let start := lfm.labels.start + keyValueSize * lfm.numLabels
  onHeap (setChunkWord lfm.labels.chunk start key)
  onHeap (setChunkWord lfm.labels.chunk (start + 8) value)
  modify fun state => { state with lfm := { state.lfm with numLabels := state.lfm.numLabels + 1 } }

/-- The C standard does not say what `realloc` does with a pointer that `malloc` has not returned, so it is a
parameter. -/
def lfmAddLabelUnsorted (realloc : Choice → ChunkPointer → Nat → HeapM ChunkPointer) (choice : Choice)
    (key value : Word) : LabelM Unit := do
  let lfm := (← get).lfm
  if lfm.maxNumLabels ≤ lfm.numLabels then growLabels realloc choice
  storeLabel key value

end LabelArray

/-- The label of an index, when it is inside the chunk. -/
def LabelState.labelAt (state : LabelState) (i : Nat) : Option (Word × Word) := do
  let bytes ← state.heap.chunks state.lfm.labels.chunk
  let start := state.lfm.labels.start + keyValueSize * i
  if start + keyValueSize ≤ bytes.length then
    some (BitVec.ofNat 64 (wordAt bytes start), BitVec.ofNat 64 (wordAt bytes (start + 8)))
  else none

/-- A call that adds a label, or other work of the process, which leaves the chunk of the array as it is. -/
inductive LabelCall where
  | add (key value : Word) (choice : Choice)
  | others (change : Heap → Heap)

def LabelState.others (state : LabelState) (change : Heap → Heap) : LabelState :=
  { state with
    heap := { change state.heap with
      chunks := Function.update (change state.heap).chunks state.lfm.labels.chunk
        (state.heap.chunks state.lfm.labels.chunk) } }

/-- A `realloc` that takes pointers into a chunk too, and keeps the bytes behind them. -/
def reallocInside (choice : Choice) (p : ChunkPointer) (n : Nat) : HeapM ChunkPointer := do
  match (← get).chunks p.chunk with
  | none => throw (.abort .memory)
  | some bytes => do
      freeChunk p.chunk
      modify fun heap =>
        { heap with
          chunks := Function.update heap.chunks choice.address
            (some ((bytes.drop p.start ++ choice.bytes n).take n)) }
      return ⟨choice.address, 0⟩

/-- A `realloc` that stops the process when the pointer is not the start of a chunk. -/
def reallocChecked (choice : Choice) (p : ChunkPointer) (n : Nat) : HeapM ChunkPointer :=
  if p.start = 0 then reallocInside choice p n else throw (.abort .memory)

end Menoetius
