import Menoetius.DiskReach

/-
This file proves that a stopped block update is recovered as a whole or not at all.
-/

namespace Menoetius
open FileImage LittleEndian

/-- The updates of an existing block. -/
inductive BlockOp where
  | write (status : BlockStatus) (buf : List UInt8)
  | release

def BlockOp.run (offset : Nat) : BlockOp → DiskM Unit
  | .write status buf => diskStorageWriteBlock offset status buf
  | .release => diskStorageReleaseBlock offset

/-- The caller passes a live status and at most the block size. -/
def BlockOp.Fits (block : Block) : BlockOp → Prop
  | .write status buf => (status = .valid ∨ status = .active) ∧ buf.length ≤ getPoolSize block.pool
  | .release => True

def BlockOp.status : BlockOp → BlockStatus
  | .write status _ => status
  | .release => .empty

/-- The payload bytes that the update writes. A release writes the link of the free list. -/
def BlockOp.data (store : DiskStorage) (block : Block) : BlockOp → List UInt8
  | .write _ buf => buf
  | .release => bytesOf 8 (store.nextFreeBlock block.pool)

/-- The same store under a crash test, or without one. -/
def DiskStorage.armed (store : DiskStorage) (test : Option Nat) : DiskStorage :=
  { store with numBeforeCrash := test }

/-- The process stops again in any number of reopenings. -/
inductive StoppedAgain (left : DiskStorage) : DiskStorage → Prop
  | refl : StoppedAgain left left
  | step {middle later : DiskStorage} {failure : Failure} (stopped : StoppedAgain left middle)
      (count : Nat) (run : diskStorageOpen (middle.armed (some count)) = .error failure later) :
      StoppedAgain left later

theorem BlockOp.data_length {store : DiskStorage} {block : Block} {op : BlockOp} (fits : op.Fits block) :
    (op.data store block).length ≤ getPoolSize block.pool := by
  cases op with
  | write status buf => exact fits.2
  | release =>
      have size := getPoolSize_ge block.pool
      rw [data, bytesOf_length]
      omega

/-- Both updates end like one logged write. -/
theorem BlockOp.ends {store : DiskStorage} {blocks front back : List Block} {block : Block}
    (files : DiskFiles store blocks) (split : blocks = front ++ block :: back)
    (used : block.status ≠ .empty) (op : BlockOp) (fits : op.Fits block) :
    (op.run (storageInitialReserved + spanOf front)).Ends store
      (fun _ after => DiskFiles after
        (front ++ block.overwrite op.status (op.data store block) (data_length fits) :: back))
      (Crashed store (LeftRecoverable store.fd.bytes (storageInitialReserved + spanOf front)
        (blockRecord block op.status (op.data store block)) scratchBound)) := by
  cases op with
  | write status buf =>
      apply (writeBlock_ends files split status fits.1 buf fits.2).mono
      · rintro _ after ⟨final, _⟩
        exact final
      · intro _ _ crashed
        exact crashed
  | release =>
      apply (releaseBlock_ends files split used).mono
      · rintro _ after ⟨final, _⟩
        exact final
      · intro _ _ crashed
        exact crashed

theorem take_writeAt (image : List UInt8) (offset count : Nat) (buf : List UInt8)
    (early : count ≤ offset) (inside : offset ≤ image.length) :
    (writeAt image offset buf).take count = image.take count := by
  apply List.ext_getElem?
  intro position
  rw [List.getElem?_take, List.getElem?_take]
  split
  · rw [writeAt_getElem? _ _ _ inside, if_neg (by omega)]
  · rfl

/-- A torn main file still starts with the version. -/
theorem Recoverable.header {main buf image rest : List UInt8} {offset : Nat}
    (state : Recoverable main offset buf image rest) (header : MainHeader main)
    (reserved : storageInitialReserved ≤ offset) (inside : offset + buf.length ≤ main.length) :
    MainHeader image ∧ image.length = main.length := by
  have early : 8 ≤ offset := le_trans (by decide) reserved
  have final := writeAt_length main buf offset inside
  have written : MainHeader (writeAt main offset buf) := by
    refine ⟨?_, by rw [final]; exact header.reserved, by rw [final]; exact header.short⟩
    rw [take_writeAt _ _ _ _ early (by omega)]
    exact header.version
  cases state with
  | before _ quiet => exact ⟨header, rfl⟩
  | after _ quiet => exact ⟨written, final⟩
  | logged _ _ safe found length covered =>
      refine ⟨⟨?_, by rw [length]; exact header.reserved, by rw [length]; exact header.short⟩, length⟩
      rw [← take_writeAt image offset 8 buf early (by omega), covered]
      exact written.version

/-- Every process that stops in a reopening leaves files that the next one recovers. -/
theorem StoppedAgain.recoverable {left later : DiskStorage} {main buf : List UInt8} {offset : Nat}
    (stopped : StoppedAgain left later) (state : LeftRecoverable main offset buf scratchBound left)
    (header : MainHeader main) (reserved : storageInitialReserved ≤ offset)
    (inside : offset + buf.length ≤ main.length) :
    LeftRecoverable main offset buf scratchBound later := by
  induction stopped with
  | refl => exact state
  | step stopped count run ih =>
      obtain ⟨rest, scratch, torn, small⟩ := ih
      have ends := @open_recoverable (DiskStorage.armed _ (some count)) main offset buf scratchBound
        (torn.header header reserved inside).1 ⟨rest, scratch, torn, small⟩ inside header.short
        (by decide) (by decide)
      exact (ends.of_error run).2.2

/-- Let an update of a block in use stop after any number of bytes, and let any number of
reopenings stop as well. The next complete reopening finds the blocks before the update or the blocks
after it. The update itself changes this block only. -/
theorem blockOp_atomic (store : DiskStorage) (reached : Reached store) (op : BlockOp) (offset : Nat)
    (block : Block) (used : InUse store offset block) (fits : op.Fits block) :
    ∃ done new, op.run offset store = .ok () done ∧
      new.status = op.status ∧ new.pool = block.pool ∧
      new.payload = op.data store block ++ block.payload.drop (op.data store block).length ∧
      blockAt (blocksOf done.fd.bytes) =
        Function.update (blockAt (blocksOf store.fd.bytes)) offset (some new) ∧
      ∀ count failure left, op.run offset (store.armed (some count)) = .error failure left →
        failure = .abort .crashTest ∧
        ∀ later, StoppedAgain left later →
          ∃ after, diskStorageOpen (later.armed none) = .ok () after ∧
            (blocksOf after.fd.bytes = blocksOf store.fd.bytes ∨
              blocksOf after.fd.bytes = blocksOf done.fd.bytes) := by
  obtain ⟨blocks, holds, quiet⟩ := reached.holds
  have files := holds.toDiskFiles
  obtain ⟨found, busy⟩ := used
  rw [files.blocksOf] at found ⊢
  obtain ⟨front, back, split, rfl⟩ := (blockAt_eq_some _ _ _).mp found
  obtain ⟨_, done, run, final⟩ := (op.ends files split busy fits).returns
    fun failure after crashed => crashed.2.1 quiet
  refine ⟨done, block.overwrite op.status (op.data store block) (BlockOp.data_length fits), run, rfl, rfl,
    rfl, ?_, ?_⟩
  · rw [final.blocksOf, split]
    exact blockAt_replace front back block _ rfl
  intro count failure left stopped
  have again : DiskFiles (store.armed (some count)) blocks := files.moved rfl rfl rfl
  obtain ⟨crash, _, state⟩ := (op.ends again split busy fits).of_error stopped
  refine ⟨crash, fun later more => ?_⟩
  have length := @BlockOp.data_length store block op fits
  obtain ⟨inside, _⟩ := files.bounds split
  have room : storageInitialReserved + spanOf front +
      (blockRecord block op.status (op.data store block)).length ≤ store.fd.bytes.length := by
    rw [blockRecord_length]
    unfold Block.span blockHeaderSize at inside
    omega
  obtain ⟨rest, scratch, torn, small⟩ := more.recoverable state files.header (by omega) room
  obtain ⟨header, same⟩ := torn.header files.header (by omega) room
  obtain ⟨_, after, open_run, image, log, which, opened, _⟩ :=
    (@open_recoverable (later.armed none) store.fd.bytes _ _ scratchBound header
      ⟨rest, scratch, torn, small⟩ room files.header.short (by decide) (by decide)).returns
      fun failure after crashed => crashed.2.1 rfl
  refine ⟨after, open_run, ?_⟩
  rw [opened.bytes]
  rcases which with rfl | rfl
  · exact Or.inl files.blocksOf
  · obtain ⟨_, _, body⟩ := files.written split op.status (op.data store block) length
    right
    rw [final.blocksOf]
    exact blocksOf_body body

set_option maxRecDepth 8000 in
/-- The release of the first of two blocks stops after 30 bytes. The other block stays as it is. -/
theorem blockOp_atomic_release :
    ∃ first store block left after,
      diskStorageReserveAndWriteBlock .valid [7, 7] createdStore = .ok 64 first ∧
      diskStorageReserveAndWriteBlock .valid [9, 9] first = .ok 194 store ∧
      InUse store 64 block ∧
      BlockOp.release.run 64 (store.armed (some 30)) = .error (.abort .crashTest) left ∧
      diskStorageOpen (left.armed none) = .ok () after ∧
      (blocksOf after.fd.bytes = blocksOf store.fd.bytes ∨
        ∃ done, BlockOp.release.run 64 store = .ok () done ∧
          blocksOf after.fd.bytes = blocksOf done.fd.bytes) ∧
      blockAt (blocksOf after.fd.bytes) 194 = blockAt (blocksOf store.fd.bytes) 194 := by
  obtain ⟨first, one⟩ : ∃ first, diskStorageReserveAndWriteBlock .valid [7, 7] createdStore =
      .ok 64 first := ⟨_, rfl⟩
  obtain ⟨store, two⟩ : ∃ store, diskStorageReserveAndWriteBlock .valid [9, 9] first = .ok 194 store := by
    cases one
    exact ⟨_, rfl⟩
  have reached : Reached store :=
    .reserved (.reserved (.created newStore_open) .valid [7, 7] 64 one) .valid [9, 9] 194 two
  obtain ⟨block, used⟩ : ∃ block, InUse store 64 block := by
    cases one
    cases two
    exact ⟨_, rfl, by decide⟩
  obtain ⟨left, stopped⟩ : ∃ left, BlockOp.release.run 64 (store.armed (some 30)) =
      .error (.abort .crashTest) left := by
    cases one
    cases two
    exact ⟨_, rfl⟩
  obtain ⟨done, new, run, _, _, _, changed, atomic⟩ := blockOp_atomic store reached .release 64 block used trivial
  obtain ⟨after, opened, which⟩ := (atomic 30 _ left stopped).2 left .refl
  refine ⟨first, store, block, left, after, one, two, used, stopped, opened,
    which.imp_right fun same => ⟨done, run, same⟩, ?_⟩
  rcases which with same | same
  · rw [same]
  · rw [same, changed, Function.update_of_ne (by decide)]

end Menoetius
