import Menoetius.DiskAlloc

/-
This file reads the blocks back from the bytes of a store and follows a store through its calls.
-/

namespace Menoetius
open FileImage LittleEndian

def BlockStatus.ofCode : UInt8 → BlockStatus
  | 1 => .reserved
  | 2 => .valid
  | 3 => .active
  | _ => .empty

@[simp] theorem BlockStatus.ofCode_code (status : BlockStatus) : ofCode status.code = status := by
  cases status <;> rfl

/-- The blocks of a byte string, up to the first one that is not whole. -/
def parseBlocks : Nat → List UInt8 → List Block
  | fuel + 1, status :: pool :: rest =>
      if known : pool.toNat < numDiskPools ∧ getPoolSize pool.toNat ≤ rest.length then
        { status := .ofCode status, pool := ⟨pool.toNat, known.1⟩
          payload := rest.take (getPoolSize pool.toNat)
          whole := by rw [List.length_take, Nat.min_eq_left known.2] } ::
        parseBlocks fuel (rest.drop (getPoolSize pool.toNat))
      else []
  | _, _ => []

/-- The blocks of a main file. -/
def blocksOf (bytes : List UInt8) : List Block :=
  parseBlocks bytes.length (bytes.drop storageInitialReserved)

theorem parseBlocks_imageOf (blocks : List Block) (fuel : Nat) (enough : spanOf blocks ≤ fuel) :
    parseBlocks fuel (imageOf blocks) = blocks := by
  induction blocks generalizing fuel with
  | nil => cases fuel <;> rfl
  | cons block blocks ih =>
      have positive := block.span_pos
      rw [spanOf_cons] at enough
      obtain ⟨fuel, rfl⟩ : ∃ less, fuel = less + 1 := ⟨fuel - 1, by omega⟩
      have pool := ofNat_pool block.pool
      have known : (UInt8.ofNat block.pool).toNat < numDiskPools ∧
          getPoolSize (UInt8.ofNat block.pool).toNat ≤ (block.payload ++ imageOf blocks).length := by
        rw [pool, List.length_append, block.whole]
        exact ⟨block.pool.isLt, by omega⟩
      have payload : (block.payload ++ imageOf blocks).take (getPoolSize (UInt8.ofNat block.pool).toNat) =
          block.payload := by
        rw [pool, ← block.whole, List.take_left]
      have rest : (block.payload ++ imageOf blocks).drop (getPoolSize (UInt8.ofNat block.pool).toNat) =
          imageOf blocks := by
        rw [pool, ← block.whole, List.drop_left]
      change parseBlocks (fuel + 1) (block.status.code :: UInt8.ofNat block.pool ::
        (block.payload ++ imageOf blocks)) = block :: blocks
      rw [parseBlocks, dif_pos known, rest, ih fuel (by omega)]
      congr 1
      cases block
      simp only [BlockStatus.ofCode_code, Block.mk.injEq, true_and]
      exact ⟨Fin.ext pool, payload⟩

theorem blocksOf_body {bytes : List UInt8} {blocks : List Block}
    (body : bytes.drop storageInitialReserved = imageOf blocks) : blocksOf bytes = blocks := by
  have length := congrArg List.length body
  rw [List.length_drop, imageOf_length] at length
  rw [blocksOf, body]
  exact parseBlocks_imageOf blocks _ (by omega)

/-- The blocks that the files hold are the blocks that their bytes spell. -/
theorem DiskFiles.blocksOf {store : DiskStorage} {blocks : List Block} (files : DiskFiles store blocks) :
    blocksOf store.fd.bytes = blocks :=
  blocksOf_body files.body

/-- A path where no store has been before. -/
def newStore : DiskStorage := ⟨⟨[], 0⟩, ⟨[], 0⟩, 0, fun _ => 0, none⟩

/-- The block at an offset, when it is in use. -/
def InUse (store : DiskStorage) (offset : Nat) (block : Block) : Prop :=
  blockAt (blocksOf store.fd.bytes) offset = some block ∧ block.status ≠ .empty

/-- The stores that completed calls reach from a new path. -/
inductive Reached : DiskStorage → Prop
  | created {after : DiskStorage} (run : diskStorageOpen newStore = .ok () after) : Reached after
  | reopened {store after : DiskStorage} (reached : Reached store)
      (run : diskStorageOpen store = .ok () after) : Reached after
  | reserved {store after : DiskStorage} (reached : Reached store) (status : BlockStatus)
      (buf : List UInt8) (offset : Nat)
      (run : diskStorageReserveAndWriteBlock status buf store = .ok offset after) : Reached after
  | written {store after : DiskStorage} (reached : Reached store) (offset : Nat) (block : Block)
      (used : InUse store offset block) (status : BlockStatus) (buf : List UInt8)
      (run : diskStorageWriteBlock offset status buf store = .ok () after) : Reached after
  | released {store after : DiskStorage} (reached : Reached store) (offset : Nat) (block : Block)
      (used : InUse store offset block)
      (run : diskStorageReleaseBlock offset store = .ok () after) : Reached after

/-- A freshly opened store has no free blocks. -/
theorem Opened.holds {before after : DiskStorage} {main rest : List UInt8} {blocks : List Block}
    (opened : Opened before after main rest) (small : rest.length ≤ scratchBound)
    (header : MainHeader main) (body : main.drop storageInitialReserved = imageOf blocks)
    (length : main.length = before.fd.bytes.length) : DiskHolds after blocks where
  header := by rw [opened.bytes]; exact header
  body := by rw [opened.bytes]; exact body
  eofOffset := by rw [opened.eofOffset, opened.bytes, length]
  scratch := ⟨rest, opened.scratch, by rw [opened.bytes]; exact opened.calm, small⟩
  free pool := ⟨[], by rw [opened.nextFreeBlock]; exact .nil, List.nodup_nil, fun _ member => by cases member⟩

/-- A clean reopen keeps the blocks. -/
theorem DiskFiles.reopen {store : DiskStorage} {blocks : List Block} (files : DiskFiles store blocks)
    (quiet : store.numBeforeCrash = none) :
    ∃ after, diskStorageOpen store = .ok () after ∧ DiskHolds after blocks ∧
      after.numBeforeCrash = none ∧ after.nextFreeBlock = fun _ => 0 := by
  obtain ⟨rest, scratch, calm, small⟩ := files.scratch
  obtain ⟨after, left, run, opened, few⟩ := open_quiet store.fd.bytes rest scratchBound rfl files.header
    scratch calm small (by decide) (by decide) quiet
  exact ⟨after, run, opened.holds few files.header files.body rfl, opened.quiet quiet, opened.nextFreeBlock⟩

/-- The files of a store that has just been created. -/
def createdStore : DiskStorage :=
  ⟨⟨versionBytes ++ List.replicate 56 0, 64⟩, ⟨versionBytes, 8⟩, 64, fun _ => 0, none⟩

theorem newStore_open : diskStorageOpen newStore = .ok () createdStore := rfl

theorem createdStore_holds : DiskHolds createdStore [] where
  header := ⟨by decide, by decide, by decide⟩
  body := by decide
  eofOffset := by decide
  scratch := by
    refine ⟨[], rfl, ⟨?_, ?_⟩, by decide⟩
    · intro place _ zero
      cases zero
    · intro offset buf found
      have none : scratchRecord [] = none := by decide
      rw [none] at found
      cases found
  free pool := ⟨[], .nil, List.nodup_nil, fun _ member => by cases member⟩

/-- The main file cannot grow any further. -/
def DiskFull (failure : Failure) : Prop := failure = .abort .lseek ∨ failure = .abort .fileTooLarge

theorem DiskFull.aborts {failure : Failure} (full : DiskFull failure) : ∃ site, failure = .abort site := by
  rcases full with same | same
  · exact ⟨_, same⟩
  · exact ⟨_, same⟩

section
variable {store : DiskStorage} {blocks : List Block} {offset : Nat} {block : Block}

theorem DiskFiles.blockAt_lt (files : DiskFiles store blocks) (found : blockAt blocks offset = some block) :
    offset + block.span < offsetLimit := by
  obtain ⟨front, back, split, rfl⟩ := (blockAt_eq_some _ _ _).mp found
  exact (files.bounds split).2

/-- The head of a free list is an offset of the file. -/
theorem DiskHolds.next_lt (holds : DiskHolds store blocks) (pool : Nat) :
    store.nextFreeBlock pool < 256 ^ 8 := by
  obtain ⟨chain, linked, _, _⟩ := holds.free pool
  generalize store.nextFreeBlock pool = head at linked ⊢
  cases linked with
  | nil => decide
  | cons _ block rest found empty same tail =>
      have below := holds.toDiskFiles.blockAt_lt found
      unfold offsetLimit at below
      omega

/-- Writing a block in use. -/
theorem DiskHolds.writeBlock (holds : DiskHolds store blocks) (quiet : store.numBeforeCrash = none)
    (found : blockAt blocks offset = some block) (used : block.status ≠ .empty) (status : BlockStatus)
    (live : status = .valid ∨ status = .active) (buf : List UInt8)
    (fits : buf.length ≤ getPoolSize block.pool) :
    ∃ after later, diskStorageWriteBlock offset status buf store = .ok () after ∧
      DiskHolds after later ∧ after.numBeforeCrash = none ∧
      blockAt later = Function.update (blockAt blocks) offset (some (block.overwrite status buf fits)) ∧
      after.nextFreeBlock = store.nextFreeBlock := by
  obtain ⟨front, back, split, rfl⟩ := (blockAt_eq_some _ _ _).mp found
  obtain ⟨_, after, run, files, books⟩ := (writeBlock_ends holds.toDiskFiles split status live buf fits).returns
    fun failure after crashed => crashed.2.1 quiet
  have free : FreeLists (blockAt blocks) store.nextFreeBlock
      fun place => place = storageInitialReserved + spanOf front := by
    apply holds.free.hold
    intro other again
    rw [found] at again
    rw [← Option.some.inj again]
    exact used
  rw [← books.nextFreeBlock, split] at free
  refine ⟨after, _, run, @DiskHolds.replaced after front back block _ files rfl free, books.quiet quiet, ?_,
    books.nextFreeBlock⟩
  rw [split]
  exact blockAt_replace front back block _ rfl

/-- Releasing a block in use, with the blocks around it. -/
theorem DiskHolds.releaseAt {front back : List Block} (holds : DiskHolds store blocks)
    (quiet : store.numBeforeCrash = none) (split : blocks = front ++ block :: back) (used : block.status ≠ .empty) :
    ∃ after empty, diskStorageReleaseBlock (storageInitialReserved + spanOf front) store = .ok () after ∧
      DiskHolds after (front ++ empty :: back) ∧ after.numBeforeCrash = none ∧
      empty.status = .empty ∧ empty.pool = block.pool ∧
      after.nextFreeBlock =
        Function.update store.nextFreeBlock block.pool (storageInitialReserved + spanOf front) ∧
      valueOf (empty.payload.take 8) = store.nextFreeBlock block.pool := by
  have found := (blockAt_eq_some blocks _ block).mpr ⟨front, back, split, rfl⟩
  obtain ⟨_, after, run, files, next, calm⟩ := (releaseBlock_ends holds.toDiskFiles split used).returns
    fun failure after crashed => crashed.2.1 quiet
  have free : FreeLists (blockAt blocks) store.nextFreeBlock
      fun place => place = storageInitialReserved + spanOf front := by
    apply holds.free.hold
    intro other again
    rw [found] at again
    rw [← Option.some.inj again]
    exact used
  have size := getPoolSize_ge block.pool
  have small : (bytesOf 8 (store.nextFreeBlock block.pool)).length ≤ getPoolSize block.pool := by
    rw [bytesOf_length]
    omega
  have link : valueOf ((block.overwrite .empty (bytesOf 8 (store.nextFreeBlock block.pool)) small).payload.take 8) =
      store.nextFreeBlock block.pool := by
    change valueOf ((bytesOf 8 (store.nextFreeBlock block.pool) ++ _).take 8) = _
    rw [List.take_left' (bytesOf_length _ _), valueOf_bytesOf_of_lt _ _ (holds.next_lt _)]
  refine ⟨after, block.overwrite .empty (bytesOf 8 (store.nextFreeBlock block.pool)) small, run, ⟨files, ?_⟩,
    calm quiet, rfl, rfl, next, link⟩
  rw [next, blockAt_replace front back block _ (by rfl), ← split]
  exact free.push _ (by rfl) link

/-- Releasing a block in use. -/
theorem DiskHolds.releaseBlock (holds : DiskHolds store blocks) (quiet : store.numBeforeCrash = none)
    (found : blockAt blocks offset = some block) (used : block.status ≠ .empty) :
    ∃ after later empty, diskStorageReleaseBlock offset store = .ok () after ∧
      DiskHolds after later ∧ after.numBeforeCrash = none ∧
      blockAt later = Function.update (blockAt blocks) offset (some empty) ∧
      empty.status = .empty ∧ empty.pool = block.pool ∧
      after.nextFreeBlock = Function.update store.nextFreeBlock block.pool offset ∧
      valueOf (empty.payload.take 8) = store.nextFreeBlock block.pool := by
  obtain ⟨front, back, split, rfl⟩ := (blockAt_eq_some _ _ _).mp found
  obtain ⟨after, empty, run, held, calm, status, pool, next, link⟩ := holds.releaseAt quiet split used
  refine ⟨after, _, empty, run, held, calm, ?_, status, pool, next, link⟩
  rw [split]
  exact blockAt_replace front back block _ (by rw [Block.span, Block.span, pool])

theorem growFile_full (main : List UInt8) (n : Nat) (quiet : store.numBeforeCrash = none)
    (fd : store.fd = ⟨main, main.length⟩)
    (full : ¬ main.length + (blockHeaderSize + getPoolSize (poolOf n)) < offsetLimit) :
    (growFile n main.length).Ends store (fun _ _ => False) fun failure _ => DiskFull failure := by
  have size := getPoolSize_ge (poolOf n)
  have header : (freshHeader n).length = 2 := rfl
  have pos : (store.file .fd).pos = main.length := by rw [DiskStorage.file, fd]
  unfold blockHeaderSize at full
  unfold growFile
  by_cases space : (store.file .fd).pos + (freshHeader n).length < offsetLimit
  · apply EStateM.ends_bind_ok (mustWrite_run _ quiet space)
    rw [pos, header] at space
    generalize middle : store.withFile _ .fd = next
    have calm : next.numBeforeCrash = none := by rw [← middle, numBeforeCrash_withFile, quiet]
    by_cases target : main.length + (blockHeaderSize + getPoolSize (poolOf n)) - 1 < offsetLimit
    · apply EStateM.ends_bind_ok
        (mustLseek_run (main.length + (blockHeaderSize + getPoolSize (poolOf n)) - 1) .set target)
      refine EStateM.ends_of_error (EStateM.bind_error (mustWrite_full _ (by decide) ?_ ?_) _) (Or.inr rfl)
      · rw [numBeforeCrash_withFile, calm]
      · rw [file_withFile]
        change ¬ main.length + (blockHeaderSize + getPoolSize (poolOf n)) - 1 + 1 < offsetLimit
        unfold blockHeaderSize
        omega
    · exact EStateM.ends_of_error (EStateM.bind_error (mustLseek_limit
        (main.length + (blockHeaderSize + getPoolSize (poolOf n)) - 1) .set target) _) (Or.inl rfl)
  · exact EStateM.ends_of_error (EStateM.bind_error
      (mustWrite_full _ (by simp [freshHeader]) quiet space) _) (Or.inr rfl)

/-- What a store holds after a block was reserved and written. -/
structure BlockAdded (content later : Nat → Option Block) (offset : Nat) (status : BlockStatus)
    (buf : List UInt8) (block : Block) : Prop where
  reserved : storageInitialReserved ≤ offset
  unused : ∀ old, content offset = some old → old.status = .empty
  added : later = Function.update content offset (some block)
  status : block.status = status
  payload : ∃ rest, block.payload = buf ++ rest
  pool : (block.pool : Nat) = poolOf buf.length

/-- The block that a reservation takes, and the free lists after it. -/
inductive Taken (content : Nat → Option Block) (next : Nat → Nat) (pool : Nat) : Nat → (Nat → Nat) → Prop
  | grown {offset : Nat} (empty : next pool = 0) (fresh : content offset = none) :
      Taken content next pool offset next
  | reused {old : Block} (nonempty : next pool ≠ 0) (found : content (next pool) = some old) :
      Taken content next pool (next pool) (Function.update next pool (valueOf (old.payload.take 8)))

/-- Reserving and writing a block. -/
theorem DiskHolds.reserveAndWrite (holds : DiskHolds store blocks) (quiet : store.numBeforeCrash = none)
    (status : BlockStatus) (live : status = .valid ∨ status = .active) (buf : List UInt8)
    (more : 1 < buf.length) (small : buf.length ≤ 2 ^ 26) :
    (diskStorageReserveAndWriteBlock status buf).Ends store
      (fun offset after => ∃ later block, DiskHolds after later ∧ after.numBeforeCrash = none ∧
        BlockAdded (blockAt blocks) (blockAt later) offset status buf block ∧
        Taken (blockAt blocks) store.nextFreeBlock (poolOf buf.length) offset after.nextFreeBlock)
      fun failure _ => DiskFull failure := by
  by_cases none : store.nextFreeBlock (poolOf buf.length) = 0
  · by_cases room : store.fd.bytes.length + (blockHeaderSize + getPoolSize (poolOf buf.length)) < offsetLimit
    · apply (reserveAndWrite_grow holds status live buf more small none room).mono
      · rintro _ after ⟨rfl, later, calm, same⟩
        have place := holds.toDiskFiles.length
        refine ⟨_, (Block.fresh ⟨poolOf buf.length, poolOf_lt _ small⟩).overwrite status buf
          (le_getPoolSize_poolOf _), later, calm quiet, ⟨?_, ?_, ?_, rfl, ⟨_, rfl⟩, rfl⟩, ?_⟩
        · rw [place]
          omega
        · intro old found
          rw [place, blockAt_end] at found
          cases found
        · rw [blockAt_concat, place]
        · rw [same]
          exact .grown none (by rw [place, blockAt_end])
      · rintro failure after ⟨_, count, armed, _⟩
        rw [quiet] at armed
        cases armed
    · obtain ⟨middle, same, fd, _, _, _, budget⟩ :=
        reserveBlock_grow_eq holds.header holds.eofOffset buf.length more small none
      have failed := growFile_full store.fd.bytes buf.length (budget.trans quiet) fd room
      rw [← holds.eofOffset] at failed
      unfold diskStorageReserveAndWriteBlock
      apply EStateM.Ends.bind (EStateM.ends_of_eq same failed)
      intro _ _ never
      exact never.elim
  · obtain ⟨front, block, back, fits, split, empty, pool, place, ends⟩ :=
      reserveAndWrite_free holds status live buf more small none
    have found : blockAt blocks (storageInitialReserved + spanOf front) = some block :=
      (blockAt_eq_some _ _ _).mpr ⟨front, back, split, rfl⟩
    apply ends.mono
    · rintro _ after ⟨rfl, later, calm, popped⟩
      refine ⟨_, block.overwrite status buf fits, later, calm quiet,
        ⟨by omega, ?_, ?_, rfl, ⟨_, rfl⟩, pool⟩, ?_⟩
      · intro old again
        rw [found] at again
        rw [← Option.some.inj again]
        exact empty
      · rw [split]
        exact blockAt_replace front back block _ (by rfl)
      · rw [popped, ← place]
        exact .reused none (by rw [place]; exact found)
    · intro failure after crashed
      exact absurd quiet crashed.2.1

/-- A reservation succeeds only for sizes that a pool has. -/
theorem reserveBlock_size {after : DiskStorage} {n : Nat}
    (run : diskStorageReserveBlock n store = .ok offset after) : 1 < n ∧ n ≤ 2 ^ 26 := by
  unfold diskStorageReserveBlock at run
  obtain ⟨⟨poolId, blockSize⟩, middle, sized, rest⟩ := EStateM.of_bind_ok run
  unfold getPoolId at sized
  obtain ⟨more, sized⟩ := of_require_bind sized
  obtain ⟨⟨_, fits⟩, sized⟩ := of_require_bind sized
  rw [EStateM.pure_apply] at sized
  injection sized with pair _
  injection pair with pool _
  subst pool
  refine ⟨more, ?_⟩
  dsimp only at rest
  split at rest
  · cases rest
  · rename_i known
    refine le_trans fits (Nat.pow_le_pow_right (by omega) ?_)
    unfold numDiskPools minDiskPowTwo at known
    unfold minDiskPowTwo
    omega

/-- A write succeeds only with a live status and within the block. -/
theorem writeBlock_size {after : DiskStorage} {status : BlockStatus} {buf : List UInt8}
    (files : DiskFiles store blocks) (found : blockAt blocks offset = some block)
    (run : diskStorageWriteBlock offset status buf store = .ok () after) :
    (status = .valid ∨ status = .active) ∧ buf.length ≤ getPoolSize block.pool := by
  obtain ⟨front, back, split, rfl⟩ := (blockAt_eq_some _ _ _).mp found
  obtain ⟨seek, reads⟩ := files.seek_read split
  unfold diskStorageWriteBlock at run
  obtain ⟨_, run⟩ := of_require_bind run
  obtain ⟨live, run⟩ := of_require_bind run
  rw [EStateM.bind_ok seek, EStateM.bind_ok reads, require_bind (header_length block), header_pool,
    ofNat_pool] at run
  exact ⟨live, (of_require_bind run).1⟩

/-- A reservation that succeeds adds a live block. -/
theorem DiskHolds.reserved (holds : DiskHolds store blocks) (quiet : store.numBeforeCrash = none)
    {status : BlockStatus} {buf : List UInt8} {after : DiskStorage}
    (run : diskStorageReserveAndWriteBlock status buf store = .ok offset after) :
    (status = .valid ∨ status = .active) ∧ (1 < buf.length ∧ buf.length ≤ 2 ^ 26) ∧
      ∃ later block, DiskHolds after later ∧ after.numBeforeCrash = none ∧
        BlockAdded (blockAt blocks) (blockAt later) offset status buf block ∧
        Taken (blockAt blocks) store.nextFreeBlock (poolOf buf.length) offset after.nextFreeBlock := by
  obtain ⟨place, middle, first, rest⟩ := EStateM.of_bind_ok run
  obtain ⟨more, small⟩ := reserveBlock_size first
  obtain ⟨_, _, second, _⟩ := EStateM.of_bind_ok rest
  have live := (of_require_bind (of_require_bind second).2).1
  exact ⟨live, ⟨more, small⟩, (holds.reserveAndWrite quiet status live buf more small).of_ok run⟩

/-- Every reached store holds whole blocks and is not under a crash test. -/
theorem Reached.holds {store : DiskStorage} (reached : Reached store) :
    ∃ blocks, DiskHolds store blocks ∧ store.numBeforeCrash = none := by
  induction reached with
  | created run =>
      rw [newStore_open] at run
      cases run
      exact ⟨[], createdStore_holds, rfl⟩
  | reopened reached run ih =>
      obtain ⟨blocks, holds, quiet⟩ := ih
      obtain ⟨after, again, final, calm, _⟩ := holds.toDiskFiles.reopen quiet
      rw [run] at again
      cases again
      exact ⟨blocks, final, calm⟩
  | reserved reached status buf offset run ih =>
      obtain ⟨blocks, holds, quiet⟩ := ih
      obtain ⟨_, _, later, block, final, calm, _⟩ := holds.reserved quiet run
      exact ⟨later, final, calm⟩
  | written reached offset block used status buf run ih =>
      obtain ⟨blocks, holds, quiet⟩ := ih
      obtain ⟨found, busy⟩ := used
      rw [holds.toDiskFiles.blocksOf] at found
      obtain ⟨live, fits⟩ := writeBlock_size holds.toDiskFiles found run
      obtain ⟨after, later, again, final, calm, _⟩ := holds.writeBlock quiet found busy status live buf fits
      rw [run] at again
      cases again
      exact ⟨later, final, calm⟩
  | released reached offset block used run ih =>
      obtain ⟨blocks, holds, quiet⟩ := ih
      obtain ⟨found, busy⟩ := used
      rw [holds.toDiskFiles.blocksOf] at found
      obtain ⟨after, later, _, again, final, calm, _⟩ := holds.releaseBlock quiet found busy
      rw [run] at again
      cases again
      exact ⟨later, final, calm⟩

end

end Menoetius
