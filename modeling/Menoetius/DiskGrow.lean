import Menoetius.DiskAtomic
import Menoetius.DiskScan

/-
This file settles what a stop inside `disk_storage_reserve_and_write_block` does to later scans.
-/

namespace Menoetius
open FileImage LittleEndian

/-- Reservations that complete, each with the offset that it returns. -/
inductive Reservations : DiskStorage → List (BlockStatus × List UInt8 × Nat) → DiskStorage → Prop
  | nil (store : DiskStorage) : Reservations store [] store
  | cons {store middle after : DiskStorage} {status : BlockStatus} {buf : List UInt8} {offset : Nat}
      {calls : List (BlockStatus × List UInt8 × Nat)}
      (run : diskStorageReserveAndWriteBlock status buf store = .ok offset middle)
      (rest : Reservations middle calls after) : Reservations store ((status, buf, offset) :: calls) after

/-- A process has stopped and left these files. After a reopen, any further reservations and one more
reopen, a full scan finds every live block of before the stop and of the further reservations once. -/
def Survives (maxN : Nat) (store left : DiskStorage) : Prop :=
  ∃ opened, diskStorageOpen (left.armed none) = .ok () opened ∧
    ∀ calls final, Reservations opened calls final →
      ∃ again reads last, diskStorageOpen final = .ok () again ∧ scanAll maxN again = .ok reads last ∧
        (∀ offset block, InUse store offset block → block.Live →
          reads.filter (fun found => found.offset = offset) = [block.readAt offset]) ∧
        ∀ status buf offset, (status, buf, offset) ∈ calls → ∃ rest,
          reads.filter (fun found => found.offset = offset) = [⟨offset, status.code, buf ++ rest⟩]

/-- The stop falls between the two header bytes of a new block, or between the header and the padding. -/
def TornGrowth (store : DiskStorage) (buf : List UInt8) (count : Nat) : Prop :=
  store.nextFreeBlock (poolOf buf.length) = 0 ∧ (count = 1 ∨ count = 2)

section
variable {store : DiskStorage} {blocks : List Block} {maxN : Nat}

theorem Block.size_le (block : Block) : getPoolSize block.pool ≤ 2 ^ 26 := by
  have below : (block.pool : Nat) < 20 := block.pool.isLt
  exact Nat.pow_le_pow_right (by decide) (by unfold minDiskPowTwo; omega)

/-- Reservations keep the live blocks and add theirs. -/
theorem Reservations.holds {final : DiskStorage} {calls : List (BlockStatus × List UInt8 × Nat)}
    (run : Reservations store calls final) :
    ∀ {blocks : List Block}, DiskHolds store blocks → store.numBeforeCrash = none →
      ∃ later, DiskHolds final later ∧ final.numBeforeCrash = none ∧
        (∀ offset block, blockAt blocks offset = some block → block.Live →
          blockAt later offset = some block) ∧
        ∀ status buf offset, (status, buf, offset) ∈ calls → ∃ block rest,
          blockAt later offset = some block ∧ block.Live ∧ block.status = status ∧
            block.payload = buf ++ rest := by
  induction run with
  | nil store =>
      intro blocks holds quiet
      exact ⟨blocks, holds, quiet, fun _ _ found _ => found, fun _ _ _ member => by cases member⟩
  | cons run rest ih =>
      intro blocks holds quiet
      obtain ⟨live, _, middle, block, held, calm, added, _⟩ := holds.reserved quiet run
      obtain ⟨later, final, silent, kept, present⟩ := ih held calm
      have mine : block.Live := by
        unfold Block.Live
        rw [added.status]
        exact live
      refine ⟨later, final, silent, ?_, ?_⟩
      · intro place other found alive
        apply kept place other _ alive
        rw [added.added, Function.update_apply, if_neg, found]
        rintro rfl
        rcases alive with status | status <;> rw [added.unused other found] at status <;> cases status
      · intro status buf offset member
        rcases List.mem_cons.mp member with same | later_call
        · obtain ⟨rfl, pair⟩ := Prod.mk.inj same
          obtain ⟨rfl, rfl⟩ := Prod.mk.inj pair
          obtain ⟨padding, payload⟩ := added.payload
          refine ⟨block, padding, kept _ _ ?_ mine, mine, added.status, payload⟩
          rw [added.added, Function.update_self]
        · exact present status buf offset later_call

/-- A reopen that keeps the live blocks is enough. -/
theorem survives_of_kept {left opened : DiskStorage} {later : List Block} (files : DiskFiles store blocks)
    (run : diskStorageOpen (left.armed none) = .ok () opened) (holds : DiskHolds opened later)
    (quiet : opened.numBeforeCrash = none) (large : 2 ^ 26 ≤ maxN)
    (kept : ∀ offset block, blockAt blocks offset = some block → block.Live →
      blockAt later offset = some block) : Survives maxN store left := by
  refine ⟨opened, run, fun calls final reserved => ?_⟩
  obtain ⟨last, held, calm, same, added⟩ := reserved.holds holds quiet
  obtain ⟨again, reopened, whole, _⟩ := held.toDiskFiles.reopen calm
  obtain ⟨state, scanned⟩ := whole.toDiskFiles.scanAll
    fun block (_ : block ∈ last) => le_trans block.size_le large
  refine ⟨again, _, state, reopened, scanned, ?_, ?_⟩
  · intro offset block used live
    have found := used.1
    rw [files.blocksOf] at found
    exact liveReads_filter _ _ _ _ (same offset block (kept offset block found live) live) live
  · intro status buf offset member
    obtain ⟨block, rest, found, live, rfl, payload⟩ := added status buf offset member
    refine ⟨rest, ?_⟩
    rw [← payload]
    exact liveReads_filter _ _ _ _ found live

/-- Opening the files of a stopped logged write on a block that was not live. -/
theorem survives_of_recoverable {left : DiskStorage} {front back : List Block} {block : Block}
    {status : BlockStatus} {buf : List UInt8} (files : DiskFiles store blocks) {grown : DiskStorage}
    (shape : DiskFiles grown (front ++ block :: back)) (dead : ¬ block.Live)
    (fits : buf.length ≤ getPoolSize block.pool) (large : 2 ^ 26 ≤ maxN)
    (kept : ∀ offset other, blockAt blocks offset = some other → other.Live →
      blockAt (front ++ block :: back) offset = some other)
    (state : LeftRecoverable grown.fd.bytes (storageInitialReserved + spanOf front)
      (blockRecord block status buf) scratchBound left) : Survives maxN store left := by
  obtain ⟨inside, _⟩ := shape.bounds rfl
  have room : storageInitialReserved + spanOf front + (blockRecord block status buf).length ≤
      grown.fd.bytes.length := by
    rw [blockRecord_length]
    unfold Block.span blockHeaderSize at inside
    omega
  obtain ⟨rest, scratch, torn, small⟩ := state
  obtain ⟨header, same⟩ := torn.header shape.header (by omega) room
  obtain ⟨_, opened, run, image, log, which, after, few⟩ :=
    (@open_recoverable (left.armed none) grown.fd.bytes _ _ scratchBound header
      ⟨rest, scratch, torn, small⟩ room shape.header.short (by decide) (by decide)).returns
      fun failure after crashed => crashed.2.1 rfl
  have length : (left.armed none).fd.bytes.length = grown.fd.bytes.length := same
  rcases which with rfl | rfl
  · exact survives_of_kept files run (after.holds few shape.header shape.body length.symm)
      (after.quiet rfl) large kept
  · obtain ⟨written, longer, body⟩ := shape.written rfl status buf fits
    refine survives_of_kept files run (after.holds few written body (longer.trans length.symm))
      (after.quiet rfl) large ?_
    intro offset other found live
    rw [blockAt_replace front back block _ (by rfl), Function.update_apply, if_neg, kept offset other found live]
    rintro rfl
    have again := kept _ other found live
    have place : blockAt (front ++ block :: back) (storageInitialReserved + spanOf front) = some block :=
      (blockAt_eq_some _ _ _).mpr ⟨front, back, rfl, rfl⟩
    rw [place] at again
    rw [← Option.some.inj again] at live
    exact dead live

/-- Opening the files of a stop before any logged write. -/
theorem survives_of_quiet {left grown : DiskStorage} {later : List Block} (files : DiskFiles store blocks)
    (shape : DiskFiles grown later) (bytes : left.fd.bytes = grown.fd.bytes)
    (log : left.scratchFd.bytes = grown.scratchFd.bytes) (large : 2 ^ 26 ≤ maxN)
    (kept : ∀ offset block, blockAt blocks offset = some block → block.Live →
      blockAt later offset = some block) : Survives maxN store left := by
  obtain ⟨rest, scratch, calm, small⟩ := shape.scratch
  obtain ⟨opened, quiet, run, after, few⟩ := @open_quiet (left.armed none) grown.fd.bytes rest scratchBound
    bytes shape.header (log.trans scratch) calm small (by decide) (by decide) rfl
  exact survives_of_kept files run (after.holds few shape.header shape.body (by rw [← bytes]; rfl))
    (after.quiet rfl) large kept

theorem DiskHolds.armed (holds : DiskHolds store blocks) (test : Option Nat) :
    DiskHolds (store.armed test) blocks :=
  ⟨holds.toDiskFiles.moved rfl rfl rfl, holds.free⟩

/-- A reservation that completes had room to extend the file. -/
theorem DiskHolds.room (holds : DiskHolds store blocks) (quiet : store.numBeforeCrash = none)
    {status : BlockStatus} {buf : List UInt8} {offset : Nat} {done : DiskStorage} (more : 1 < buf.length)
    (small : buf.length ≤ 2 ^ 26) (none : store.nextFreeBlock (poolOf buf.length) = 0)
    (run : diskStorageReserveAndWriteBlock status buf store = .ok offset done) :
    store.fd.bytes.length + (blockHeaderSize + getPoolSize (poolOf buf.length)) < offsetLimit := by
  by_contra full
  obtain ⟨place, middle, first, _⟩ := EStateM.of_bind_ok run
  obtain ⟨grown, same, fd, _, _, _, budget⟩ :=
    reserveBlock_grow_eq holds.header holds.eofOffset buf.length more small none
  have failed := growFile_full store.fd.bytes buf.length (budget.trans quiet) fd full
  rw [same, holds.eofOffset] at first
  exact failed.of_ok first

/-- A store that has just grown by a block without data. -/
def DiskStorage.grown (store : DiskStorage) (block : Block) : DiskStorage :=
  { store with fd := ⟨store.fd.bytes ++ block.image, 0⟩, eofOffset := store.eofOffset + block.span }

theorem blockAt_kept_concat (blocks : List Block) (new : Block) (offset : Nat) (block : Block)
    (found : blockAt blocks offset = some block) : blockAt (blocks ++ [new]) offset = some block := by
  rw [blockAt_concat, Function.update_apply, if_neg, found]
  rintro rfl
  rw [blockAt_end] at found
  cases found

/-- A stop anywhere else is survived. -/
theorem survives_of_not_torn (reached : Reached store) {status : BlockStatus} {buf : List UInt8}
    {count offset : Nat} {done left : DiskStorage} (large : 2 ^ 26 ≤ maxN)
    (completes : diskStorageReserveAndWriteBlock status buf store = .ok offset done)
    (stopped : diskStorageReserveAndWriteBlock status buf (store.armed (some count)) =
      .error (.abort .crashTest) left)
    (whole : ¬ TornGrowth store buf count) : Survives maxN store left := by
  obtain ⟨blocks, holds, quiet⟩ := reached.holds
  obtain ⟨live, ⟨more, small⟩, _⟩ := holds.reserved quiet completes
  have armed := holds.armed (some count)
  by_cases none : store.nextFreeBlock (poolOf buf.length) = 0
  · have room := holds.room quiet more small none completes
    have files := holds.toDiskFiles
    have place : storageInitialReserved + spanOf blocks = store.fd.bytes.length := files.length.symm
    have shape : DiskFiles (store.grown (Block.fresh ⟨poolOf buf.length, poolOf_lt _ small⟩))
        (blocks ++ [Block.fresh ⟨poolOf buf.length, poolOf_lt _ small⟩]) :=
      files.grow _ rfl rfl rfl room
    obtain ⟨_, test, same, which⟩ :=
      (reserveAndWrite_grow armed status live buf more small none room).of_error stopped
    obtain rfl : count = test := Option.some.inj same
    have early : count ≠ 1 ∧ count ≠ 2 := by
      constructor <;> rintro rfl <;> exact whole ⟨none, by decide⟩
    rcases which with ⟨few, scratch, bytes⟩ | ⟨_, state⟩
    · by_cases zero : count = 0
      · subst zero
        refine survives_of_quiet files files ?_ (congrArg File.bytes scratch) large fun _ _ found _ => found
        rw [bytes, grownImage, if_pos (by decide), List.take_zero, List.append_nil]
        rfl
      · obtain rfl : count = 3 := by omega
        refine survives_of_quiet files shape ?_ (congrArg File.bytes scratch) large ?_
        · rw [bytes]
          rfl
        · intro offset block found _
          exact blockAt_kept_concat blocks _ offset block found
    · refine @survives_of_recoverable store blocks maxN left blocks [] _ status buf files _ shape ?_
        (le_getPoolSize_poolOf _) large ?_ ?_
      · rintro (status | status) <;> cases status
      · intro offset block found _
        exact blockAt_kept_concat blocks _ offset block found
      · rw [place]
        exact state
  · obtain ⟨front, block, back, fits, split, empty, _, _, ends⟩ :=
      reserveAndWrite_free armed status live buf more small none
    obtain ⟨_, _, state⟩ := ends.of_error stopped
    have shape := holds.toDiskFiles
    rw [split] at shape
    refine survives_of_recoverable holds.toDiskFiles shape ?_ fits large ?_ state
    · rintro (status | status) <;> rw [empty] at status <;> cases status
    · intro offset other found _
      rw [← split]
      exact found

/-- A store whose main file ends with a part of a block header, and that knows no free block. -/
structure TornFiles (store : DiskStorage) (main : List UInt8) : Prop where
  bytes : store.fd.bytes = main
  header : MainHeader main
  scratch : ∃ rest, store.scratchFd.bytes = versionBytes ++ rest ∧ ScratchQuiet main rest ∧
    rest.length ≤ scratchBound
  quiet : store.numBeforeCrash = none

/-- Opening such files does not repair them. -/
theorem TornFiles.reopen {main : List UInt8} (torn : TornFiles store main) {after : DiskStorage}
    (run : diskStorageOpen store = .ok () after) :
    TornFiles after main ∧ after.eofOffset = main.length ∧ after.nextFreeBlock = fun _ => 0 := by
  obtain ⟨rest, scratch, calm, small⟩ := torn.scratch
  obtain ⟨opened, log, again, files, few⟩ := open_quiet main rest scratchBound torn.bytes torn.header
    scratch calm small (by decide) (by decide) torn.quiet
  rw [run] at again
  cases again
  exact ⟨⟨files.bytes, torn.header, ⟨log, files.scratch, files.calm, few⟩, files.quiet torn.quiet⟩,
    by rw [files.eofOffset, torn.bytes], files.nextFreeBlock⟩

/-- Writing the last block of such files. -/
theorem TornFiles.writeBlock {before : List UInt8} {block : Block}
    (torn : TornFiles store (before ++ block.image))
    (reserved : storageInitialReserved ≤ before.length) (status : BlockStatus)
    (live : status = .valid ∨ status = .active) (buf : List UInt8)
    (fits : buf.length ≤ getPoolSize block.pool) :
    ∃ after, diskStorageWriteBlock before.length status buf store = .ok () after ∧
      TornFiles after (before ++ (block.overwrite status buf fits).image) := by
  obtain ⟨rest, scratch, calm, small⟩ := torn.scratch
  have short := torn.header.short
  have positive : 0 < before.length := lt_of_lt_of_le (by decide) reserved
  have length : (before ++ block.image).length = before.length + block.span := by simp
  have largest := block.size_le
  have size := blockRecord_length block status buf
  have inside : before.length + (blockRecord block status buf).length ≤ (before ++ block.image).length := by
    rw [length, size, Block.span, blockHeaderSize]
    omega
  have image : writeAt (before ++ block.image) before.length (blockRecord block status buf) =
      before ++ (block.overwrite status buf fits).image := by
    rw [writeAt_over, size, Nat.add_comm]
    rfl
  have seek := @mustLseek_run store .fd before.length .set (by
    change before.length < offsetLimit
    omega)
  have reads : read .fd blockHeaderSize (store.seekTo before.length) =
      .ok [block.status.code, UInt8.ofNat block.pool] (store.seekTo (before.length + blockHeaderSize)) := by
    have data : readAt store.fd.bytes before.length blockHeaderSize =
        [block.status.code, UInt8.ofNat block.pool] := by
      rw [torn.bytes, readAt, List.drop_left]
      rfl
    rw [read_run]
    change EStateM.Result.ok (readAt store.fd.bytes before.length blockHeaderSize)
      (store.seekTo (before.length + (readAt store.fd.bytes before.length blockHeaderSize).length)) = _
    rw [data]
    rfl
  obtain ⟨_, after, run, log, held, silent, few⟩ :=
    (@loggedWrite_ends _ (store.seekTo (before.length + blockHeaderSize)) before.length
      (blockRecord block status buf) (before ++ block.image) rest scratchBound
      ⟨SameBooks.refl _, torn.bytes, scratch⟩ calm inside short (by unfold scratchBound; omega) small
      (by decide)).returns fun failure after crashed => crashed.2.1 torn.quiet
  rw [image] at held silent
  refine ⟨after, ?_, ⟨held.main, ?_, ⟨log, held.rest, silent, few⟩, held.quiet torn.quiet⟩⟩
  · unfold diskStorageWriteBlock
    rw [require_bind positive, require_bind live, EStateM.bind_ok seek]
    change (read .fd blockHeaderSize >>= _) (store.seekTo before.length) = _
    rw [EStateM.bind_ok reads, require_bind (header_length block), header_pool, ofNat_pool, require_bind fits]
    exact run
  · have same : (before ++ (block.overwrite status buf fits).image).length = (before ++ block.image).length := by
      simp
    rw [← image] at same ⊢
    refine ⟨?_, by rw [same]; exact torn.header.reserved, by rw [same]; exact short⟩
    rw [take_writeAt _ _ _ _ (le_trans (by decide) reserved) (by omega), torn.header.version]

/-- The block that a later reservation adds. -/
def smallBlock : Block := Block.fresh ⟨poolOf 2, poolOf_lt 2 (by decide)⟩

/-- A reservation behind the torn bytes completes as if they were not there. -/
theorem TornFiles.reserve {main : List UInt8} (torn : TornFiles store main)
    (eof : store.eofOffset = main.length) (none : store.nextFreeBlock = fun _ => 0)
    (room : main.length + 130 < offsetLimit) :
    ∃ after, diskStorageReserveAndWriteBlock .valid [7, 7] store = .ok main.length after ∧
      TornFiles after (main ++ (smallBlock.overwrite .valid [7, 7] (by decide)).image) := by
  have bytes := torn.bytes
  obtain ⟨rest, scratch, calm, small⟩ := torn.scratch
  obtain ⟨middle, same, fd, log, _, next, budget⟩ := @reserveBlock_grow_eq store (by rw [bytes]; exact torn.header)
    (by rw [bytes]; exact eof) 2 (by decide) (by decide) (by rw [none])
  rw [bytes] at fd
  obtain ⟨offset, grown, run, rfl, image, kept, books, _⟩ :=
    (growFile_ends main 2 (by decide) fd room).returns fun failure after stopped => by
      obtain ⟨_, _, count, armed, _⟩ := stopped
      rw [budget, torn.quiet] at armed
      cases armed
  have shape : TornFiles grown (main ++ smallBlock.image) := by
    refine ⟨image, torn.header.grow _ ?_, ⟨rest, ?_, calm.grow _, small⟩, books.quiet (budget.trans torn.quiet)⟩
    · rw [List.length_append, Block.image_length]
      exact room
    · rw [kept, log]
      exact scratch
  obtain ⟨after, written, final⟩ := shape.writeBlock torn.header.reserved .valid (Or.inl rfl) [7, 7] (by decide)
  refine ⟨after, ?_, final⟩
  rw [eof] at same
  have first : diskStorageReserveBlock ([7, 7] : List UInt8).length store = .ok main.length grown :=
    same.trans run
  unfold diskStorageReserveAndWriteBlock
  rw [EStateM.bind_ok first, EStateM.bind_ok written]
  rfl

end

/-- The scan skips over what it takes for a block that is not live. -/
theorem readBlocksLoop_skips {store : DiskStorage} {maxN : Nat} {before rest : List UInt8}
    {status pool : UInt8} (scan : ScanAt store before (status :: pool :: rest)) (dead : status.toNat < 2)
    (known : pool.toNat < numDiskPools) (fits : getPoolSize pool.toNat ≤ maxN)
    {post : Option BlockRead → DiskStorage → Prop} (fuel : Nat)
    (next : before.length + 2 + getPoolSize pool.toNat < offsetLimit →
      (readBlocksLoop maxN fuel).Ends (store.seekTo (before.length + 2 + getPoolSize pool.toNat)) post
        fun _ _ => True) :
    (readBlocksLoop maxN (fuel + 1)).Ends store post fun _ _ => True := by
  have seek := scan.header.1
  have reads : read .fd blockHeaderSize store = .ok [status, pool] (store.seekTo (before.length + 2)) :=
    scan.header.2
  have good : ¬ (blockNumStatuses ≤ status.toNat ∨ numDiskPools ≤ pool.toNat) := by
    unfold blockNumStatuses
    omega
  have other : ¬ (status = BlockStatus.valid.code ∨ status = BlockStatus.active.code) := by
    rintro (rfl | rfl) <;> exact absurd dead (by decide)
  have first : ([status, pool] : List UInt8).getD 0 0 = status := rfl
  have second : ([status, pool] : List UInt8).getD 1 0 = pool := rfl
  have target : lseekTarget ((store.seekTo (before.length + 2)).file .fd) (getPoolSize pool.toNat) .cur =
      before.length + 2 + getPoolSize pool.toNat := rfl
  unfold readBlocksLoop
  apply EStateM.ends_bind_ok seek
  rw [require_bind scan.positive]
  apply EStateM.ends_bind_ok reads
  rw [if_neg (by simp), if_neg (by simp [blockHeaderSize]), first, second, if_neg good,
    if_neg (Nat.not_lt.mpr fits), if_neg other]
  by_cases inside : before.length + 2 + getPoolSize pool.toNat < offsetLimit
  · exact EStateM.ends_bind_ok (mustLseek_run _ .cur (by rw [target]; exact inside)) (next inside)
  · exact EStateM.ends_of_error (EStateM.bind_error (mustLseek_limit _ .cur (by rw [target]; exact inside)) _)
      trivial

/-- The bytes of the block behind the torn header. -/
def smallImage : List UInt8 := (smallBlock.overwrite .valid [7, 7] (by decide)).image

theorem smallImage_length : smallImage.length = 130 := by
  rw [smallImage, Block.image_length]
  rfl

/-- The scan never finds the block behind the torn header. -/
theorem readBlocksLoop_torn {store : DiskStorage} {maxN n count : Nat} {before : List UInt8}
    (small : n ≤ 2 ^ 26) (torn : count = 1 ∨ count = 2) (large : 2 ^ 26 ≤ maxN)
    (scan : ScanAt store before ((freshHeader n).take count ++ smallImage)) (fuel : Nat) (some : 2 ≤ fuel) :
    (readBlocksLoop maxN fuel).Ends store (fun result after => result = none ∧ ∃ pos, after = store.seekTo pos)
      fun _ _ => True := by
  obtain ⟨fuel, rfl⟩ : ∃ less, fuel = less + 2 := ⟨fuel - 2, by omega⟩
  have length := scan.length
  have positive := scan.positive
  rw [List.length_append, smallImage_length] at length
  have past : ∀ pos fuel, before.length + 132 ≤ pos → pos < offsetLimit →
      (readBlocksLoop maxN fuel).Ends (store.seekTo pos)
        (fun result after => result = none ∧ ∃ pos, after = store.seekTo pos) fun _ _ => True := by
    intro pos fuel far inside
    have end_le : store.fd.bytes.length ≤ pos := by
      have header : ((freshHeader n).take count).length ≤ 2 := List.length_take_le' _ _
      omega
    exact EStateM.ends_of_ok (@readBlocksLoop_past (store.seekTo pos) maxN end_le (by rw [seekTo_pos]; omega)
      inside fuel) ⟨rfl, pos, rfl⟩
  rcases torn with rfl | rfl
  · -- the status of the later block is read as a pool
    have first : ScanAt store before (1 :: 2 :: smallImage.drop 1) := scan
    apply readBlocksLoop_skips first (by decide) (by decide) (le_trans (by decide) large)
    intro inside
    apply past _ _ _ inside
    change before.length + 132 ≤ before.length + 2 + 512
    omega
  · have first : ScanAt store before (1 :: UInt8.ofNat (poolOf n) :: smallImage) := scan
    have pool : (UInt8.ofNat (poolOf n)).toNat = poolOf n := ofNat_pool ⟨poolOf n, poolOf_lt n small⟩
    have size := (Block.fresh ⟨poolOf n, poolOf_lt n small⟩).size_le
    apply readBlocksLoop_skips first (by decide) (by rw [pool]; exact poolOf_lt n small)
      (by rw [pool]; exact le_trans size large)
    rw [pool]
    intro inside
    by_cases zero : poolOf n = 0
    · -- the last two bytes of the later block are read as an empty block
      have part : (freshHeader n).take 2 ++ smallImage =
          (freshHeader n ++ smallImage.take 128) ++ [0, 0] := by
        rw [List.append_assoc]
        rfl
      rw [part] at scan
      have next := scan.skip
      have place : before.length + (freshHeader n ++ smallImage.take 128).length =
          before.length + 2 + getPoolSize (poolOf n) := by
        rw [zero]
        rfl
      rw [place] at next
      apply readBlocksLoop_skips next (by decide) (by decide) (le_trans (by decide) large)
      intro inside
      rw [seekTo_seekTo]
      apply past _ _ _ inside
      rw [List.length_append, place]
      have least := getPoolSize_ge (poolOf n)
      omega
    · apply past _ _ _ inside
      have larger : getPoolSize 1 ≤ getPoolSize (poolOf n) :=
        Nat.pow_le_pow_right (by decide) (by unfold minDiskPowTwo; omega)
      change 256 ≤ _ at larger
      omega

/-- The reads of whole blocks lie before the end of the blocks. -/
theorem liveReads_filter_end (start : Nat) (blocks : List Block) (offset : Nat)
    (beyond : start + spanOf blocks ≤ offset) :
    (liveReads start blocks).filter (fun found => found.offset = offset) = [] := by
  rw [List.filter_eq_nil_iff]
  rintro found member
  simp only [liveReads, List.mem_map, List.mem_filter] at member
  obtain ⟨⟨place, other⟩, ⟨inside, _⟩, rfl⟩ := member
  have bounds := placed_bounds _ _ _ _ inside
  have wide := other.span_pos
  have apart : place ≠ offset := by omega
  exact fun same => apart (of_decide_eq_true same)

/-- The block of a reservation after a torn growth is lost. -/
theorem not_survives_of_torn {store left : DiskStorage} (reached : Reached store) {status : BlockStatus}
    {buf : List UInt8} {maxN count offset : Nat} {done : DiskStorage} (large : 2 ^ 26 ≤ maxN)
    (completes : diskStorageReserveAndWriteBlock status buf store = .ok offset done)
    (stopped : diskStorageReserveAndWriteBlock status buf (store.armed (some count)) =
      .error (.abort .crashTest) left)
    (torn : TornGrowth store buf count) (space : store.fd.bytes.length + 132 < offsetLimit) :
    ¬ Survives maxN store left := by
  obtain ⟨blocks, holds, quiet⟩ := reached.holds
  obtain ⟨live, ⟨more, small⟩, _⟩ := holds.reserved quiet completes
  obtain ⟨none, early⟩ := torn
  have room := holds.room quiet more small none completes
  have files := holds.toDiskFiles
  have place : storageInitialReserved + spanOf blocks = store.fd.bytes.length := files.length.symm
  obtain ⟨_, test, same, which⟩ :=
    (reserveAndWrite_grow (holds.armed (some count)) status live buf more small none room).of_error stopped
  obtain rfl : count = test := Option.some.inj same
  obtain ⟨_, kept, bytes⟩ : count ≤ 3 ∧ left.scratchFd = store.scratchFd ∧
      left.fd.bytes = grownImage store.fd.bytes buf.length small count := by
    rcases which with first | ⟨late, _⟩
    · exact first
    · omega
  rw [grownImage, if_pos (by omega)] at bytes
  have header : ((freshHeader buf.length).take count).length ≤ 2 := List.length_take_le' _ _
  have shape : TornFiles (left.armed Option.none) (store.fd.bytes ++ (freshHeader buf.length).take count) := by
    obtain ⟨rest, scratch, calm, few⟩ := files.scratch
    refine ⟨bytes, files.header.grow _ ?_, ⟨rest, ?_, calm.grow _, few⟩, rfl⟩
    · rw [List.length_append]
      omega
    · rw [← scratch, ← kept]
      rfl
  rintro ⟨opened, run, rest⟩
  obtain ⟨left_open, eof, free⟩ := shape.reopen run
  obtain ⟨final, reserved, written⟩ := left_open.reserve eof free (by rw [List.length_append]; omega)
  obtain ⟨again, reads, last, reopened, scanned, _, found⟩ := rest _ final (.cons reserved (.nil final))
  obtain ⟨padding, present⟩ := found .valid [7, 7] _ List.mem_cons_self
  obtain ⟨whole, _, _⟩ := written.reopen reopened
  -- the scan sees the blocks of before the stop and nothing behind them
  have scan : ScanAt (again.seekTo storageInitialReserved) (store.fd.bytes.take storageInitialReserved)
      (imageOf blocks ++ ((freshHeader buf.length).take count ++ smallImage)) := by
    have head : (store.fd.bytes.take storageInitialReserved).length = storageInitialReserved := by
      rw [List.length_take, Nat.min_eq_left files.header.reserved]
    refine ⟨?_, by rw [seekTo_pos, head], by rw [head], by rw [seekTo_bytes, whole.bytes]; exact whole.header.short⟩
    rw [seekTo_bytes, whole.bytes, ← files.body, ← List.append_assoc, List.take_append_drop, List.append_assoc]
    rfl
  have spans := spanOf_ge blocks
  have length : store.fd.bytes.length ≤ again.fd.bytes.length := by
    rw [whole.bytes]
    simp only [List.length_append]
    omega
  have ends := scanBlocks_ends _ 2 (again.fd.bytes.length + 1) (by decide) blocks _ _ scan (by omega)
    (fun block _ => le_trans block.size_le large) (by
      intro fuel some
      have next := scan.skip
      rw [imageOf_length] at next
      exact readBlocksLoop_torn small early large next fuel some)
  rw [scanAll_eq] at scanned
  have all := ends.of_ok scanned
  rw [List.length_take, Nat.min_eq_left files.header.reserved] at all
  rw [all, liveReads_filter_end _ _ _ (by rw [place, List.length_append]; omega)] at present
  cases present

/-- A stop inside a reservation is survived exactly when the file was not growing or the stop came
before the first or after the second byte of the new header. The other direction needs room for one
more block in the file. -/
theorem reserveAndWriteBlock_survives (store : DiskStorage) (reached : Reached store)
    (status : BlockStatus) (buf : List UInt8) (count offset maxN : Nat) (done left : DiskStorage)
    (large : 2 ^ 26 ≤ maxN)
    (completes : diskStorageReserveAndWriteBlock status buf store = .ok offset done)
    (stopped : diskStorageReserveAndWriteBlock status buf (store.armed (some count)) =
      .error (.abort .crashTest) left) :
    (¬ TornGrowth store buf count → Survives maxN store left) ∧
      (TornGrowth store buf count → store.fd.bytes.length + 132 < offsetLimit → ¬ Survives maxN store left) :=
  ⟨survives_of_not_torn reached large completes stopped,
    fun torn space => not_survives_of_torn reached large completes stopped torn space⟩

set_option maxRecDepth 8000 in
/-- A stop after three bytes of the first reservation of a new store. -/
theorem reserveAndWriteBlock_survives_new :
    ∃ done left, diskStorageReserveAndWriteBlock .valid [7, 7] createdStore = .ok 64 done ∧
      diskStorageReserveAndWriteBlock .valid [7, 7] (createdStore.armed (some 3)) =
        .error (.abort .crashTest) left ∧
      Survives (2 ^ 26) createdStore left := by
  obtain ⟨done, completes⟩ : ∃ done, diskStorageReserveAndWriteBlock .valid [7, 7] createdStore =
      .ok 64 done := ⟨_, rfl⟩
  obtain ⟨left, stopped⟩ : ∃ left, diskStorageReserveAndWriteBlock .valid [7, 7]
      (createdStore.armed (some 3)) = .error (.abort .crashTest) left := ⟨_, rfl⟩
  refine ⟨done, left, completes, stopped, ?_⟩
  apply (reserveAndWriteBlock_survives createdStore (.created newStore_open) .valid [7, 7] 3 64 _ done left
    le_rfl completes stopped).1
  rintro ⟨_, early⟩
  omega

set_option maxRecDepth 8000 in
/-- A stop after the two header bytes loses the block of the next process. -/
theorem reserveAndWriteBlock_torn :
    ∃ done left, Reached createdStore ∧
      diskStorageReserveAndWriteBlock .valid [7, 7] createdStore = .ok 64 done ∧
      diskStorageReserveAndWriteBlock .valid [7, 7] (createdStore.armed (some 2)) =
        .error (.abort .crashTest) left ∧
      ¬ Survives (2 ^ 26) createdStore left := by
  obtain ⟨done, completes⟩ : ∃ done, diskStorageReserveAndWriteBlock .valid [7, 7] createdStore =
      .ok 64 done := ⟨_, rfl⟩
  obtain ⟨left, stopped⟩ : ∃ left, diskStorageReserveAndWriteBlock .valid [7, 7]
      (createdStore.armed (some 2)) = .error (.abort .crashTest) left := ⟨_, rfl⟩
  exact ⟨done, left, .created newStore_open, completes, stopped, not_survives_of_torn (.created newStore_open)
    le_rfl completes stopped ⟨rfl, Or.inr rfl⟩ (by decide)⟩

end Menoetius
