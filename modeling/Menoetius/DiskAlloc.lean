import Menoetius.DiskOps

/-
This file follows the free lists of a store and the growth of its main file.
-/

namespace Menoetius
open FileImage LittleEndian

variable {store : DiskStorage} {blocks : List Block}

/-- The pool of a payload of this size. -/
def poolOf (n : Nat) : Nat := max ((n - 1).log2 + 1) minDiskPowTwo - minDiskPowTwo

theorem getPoolSize_poolOf (n : Nat) : getPoolSize (poolOf n) = 2 ^ max ((n - 1).log2 + 1) minDiskPowTwo := by
  rw [getPoolSize, poolOf, Nat.sub_add_cancel (Nat.le_max_right _ _)]

/-- A payload fits the block size of its pool. -/
theorem le_getPoolSize_poolOf (n : Nat) : n ≤ getPoolSize (poolOf n) := by
  have below : n - 1 < 2 ^ ((n - 1).log2 + 1) := Nat.lt_log2_self
  have larger : 2 ^ ((n - 1).log2 + 1) ≤ 2 ^ max ((n - 1).log2 + 1) minDiskPowTwo :=
    Nat.pow_le_pow_right (by omega) (Nat.le_max_left _ _)
  rw [getPoolSize_poolOf]
  omega

/-- A payload of at most a power of two takes a block of at most this size. -/
theorem getPoolSize_poolOf_le (n power : Nat) (small : n ≤ 2 ^ power) (least : minDiskPowTwo ≤ power) :
    getPoolSize (poolOf n) ≤ 2 ^ power := by
  rw [getPoolSize_poolOf]
  apply Nat.pow_le_pow_right (by omega)
  apply Nat.max_le.mpr ⟨?_, least⟩
  by_cases zero : n - 1 = 0
  · rw [zero]
    unfold minDiskPowTwo at least
    simp
    omega
  · have positive : 0 < 2 ^ power := Nat.two_pow_pos power
    exact (Nat.log2_lt zero).mpr (by omega)

theorem poolOf_lt (n : Nat) (small : n ≤ 2 ^ 26) : poolOf n < numDiskPools := by
  have size := getPoolSize_poolOf_le n 26 small (by decide)
  rw [getPoolSize, Nat.pow_le_pow_iff_right (by omega)] at size
  unfold minDiskPowTwo at size
  unfold numDiskPools
  omega

theorem poolOf_ge (n : Nat) (large : 2 ^ 26 < n) : numDiskPools ≤ poolOf n := by
  have size := le_getPoolSize_poolOf n
  have power := lt_of_lt_of_le large size
  rw [getPoolSize, Nat.pow_lt_pow_iff_right (by omega)] at power
  unfold minDiskPowTwo at power
  unfold numDiskPools
  omega

theorem getPoolId_run (n : Nat) (some : 1 < n) (small : n ≤ 2 ^ 62) :
    getPoolId n store = .ok (poolOf n, getPoolSize (poolOf n)) store := by
  have bits : 64 - builtinClzll (BitVec.ofNat 64 (n - 1)) = (n - 1).log2 + 1 := by
    have short : (n - 1).log2 < 62 := (Nat.log2_lt (by omega)).mpr (by omega)
    rw [builtinClzll, BitVec.toNat_ofNat, Nat.mod_eq_of_lt (by omega)]
    omega
  have size := getPoolSize_poolOf n
  have fits := le_getPoolSize_poolOf n
  have power : max ((n - 1).log2 + 1) minDiskPowTwo < 63 := by
    have short : (n - 1).log2 < 62 := (Nat.log2_lt (by omega)).mpr (by omega)
    unfold minDiskPowTwo
    omega
  unfold getPoolId
  rw [require_bind some, bits, require_bind ⟨power, by rw [← size]; exact fits⟩, ← size]
  rfl

/-- The blocks that a free list links, from its head. -/
inductive FreeChain (content : Nat → Option Block) (pool : Nat) : Nat → List Nat → Prop
  | nil : FreeChain content pool 0 []
  | cons (offset : Nat) (block : Block) (rest : List Nat) (found : content offset = some block)
      (empty : block.status = .empty) (same : block.pool = pool)
      (chain : FreeChain content pool (valueOf (block.payload.take 8)) rest) :
      FreeChain content pool offset (offset :: rest)

/-- Every pool has a free list. An offset that a caller holds is on none of them. -/
def FreeLists (content : Nat → Option Block) (next : Nat → Nat) (held : Nat → Prop) : Prop :=
  ∀ pool, ∃ chain, FreeChain content pool (next pool) chain ∧ chain.Nodup ∧ ∀ offset ∈ chain, ¬ held offset

/-- A change outside the chain keeps it. -/
theorem FreeChain.update {content : Nat → Option Block} {pool head : Nat} {chain : List Nat}
    (linked : FreeChain content pool head chain) (offset : Nat) (block : Block)
    (outside : offset ∉ chain) :
    FreeChain (Function.update content offset (some block)) pool head chain := by
  induction linked with
  | nil => exact .nil
  | cons place old rest found empty same chain ih =>
      rw [List.mem_cons, not_or] at outside
      refine .cons place old rest ?_ empty same (ih outside.2)
      rw [Function.update_of_ne (Ne.symm outside.1), found]

theorem FreeChain.empty {content : Nat → Option Block} {pool head : Nat} {chain : List Nat}
    (linked : FreeChain content pool head chain) {offset : Nat} (member : offset ∈ chain) :
    ∃ block, content offset = some block ∧ block.status = .empty ∧ block.pool = pool := by
  induction linked with
  | nil => cases member
  | cons place block rest found empty same chain ih =>
      rcases List.mem_cons.mp member with rfl | later
      · exact ⟨block, found, empty, same⟩
      · exact ih later

/-- A store with its blocks and its free lists. -/
structure DiskHolds (store : DiskStorage) (blocks : List Block) : Prop extends DiskFiles store blocks where
  free : FreeLists (blockAt blocks) store.nextFreeBlock fun _ => False

/-- A block in use is on no free list. -/
theorem FreeLists.hold {content : Nat → Option Block} {next : Nat → Nat}
    (free : FreeLists content next fun _ => False) {offset : Nat}
    (used : ∀ block, content offset = some block → block.status ≠ .empty) :
    FreeLists content next fun place => place = offset := by
  intro pool
  obtain ⟨chain, linked, distinct, _⟩ := free pool
  refine ⟨chain, linked, distinct, ?_⟩
  rintro place member rfl
  obtain ⟨block, found, empty, _⟩ := linked.empty member
  exact used block found empty

/-- A held block may change in any way. -/
theorem FreeLists.update {content : Nat → Option Block} {next : Nat → Nat} {offset : Nat}
    (free : FreeLists content next fun place => place = offset) (block : Block) :
    FreeLists (Function.update content offset (some block)) next fun place => place = offset := by
  intro pool
  obtain ⟨chain, linked, distinct, outside⟩ := free pool
  refine ⟨chain, linked.update offset block ?_, distinct, outside⟩
  exact fun member => outside offset member rfl

theorem FreeLists.drop {content : Nat → Option Block} {next : Nat → Nat} {held : Nat → Prop}
    (free : FreeLists content next held) : FreeLists content next fun _ => False := by
  intro pool
  obtain ⟨chain, linked, distinct, _⟩ := free pool
  exact ⟨chain, linked, distinct, fun _ _ => id⟩

/-- A held block that becomes the head of its free list. -/
theorem FreeLists.push {content : Nat → Option Block} {next : Nat → Nat} {offset : Nat}
    (free : FreeLists content next fun place => place = offset) (block : Block)
    (empty : block.status = .empty) (link : valueOf (block.payload.take 8) = next block.pool) :
    FreeLists (Function.update content offset (some block))
      (Function.update next block.pool offset) fun _ => False := by
  intro pool
  obtain ⟨chain, linked, distinct, outside⟩ := free pool
  have fresh : offset ∉ chain := fun member => outside offset member rfl
  have kept := linked.update offset block fresh
  by_cases own : pool = block.pool
  · subst own
    refine ⟨offset :: chain, ?_, List.nodup_cons.mpr ⟨fresh, distinct⟩, fun _ _ => id⟩
    rw [Function.update_self]
    refine .cons offset block chain (Function.update_self _ _ _) empty rfl ?_
    rw [link]
    exact kept
  · refine ⟨chain, ?_, distinct, fun _ _ => id⟩
    rw [Function.update_of_ne own]
    exact kept

/-- The head of a free list leaves it. -/
theorem FreeLists.pop {content : Nat → Option Block} {next : Nat → Nat} {pool : Nat}
    (free : FreeLists content next fun _ => False) (nonempty : next pool ≠ 0) :
    ∃ block, content (next pool) = some block ∧ block.status = .empty ∧ block.pool = pool ∧
      FreeLists content (Function.update next pool (valueOf (block.payload.take 8)))
        fun place => place = next pool := by
  obtain ⟨chain, linked, distinct, _⟩ := free pool
  generalize start : next pool = head at linked nonempty ⊢
  cases linked with
  | nil => exact absurd rfl nonempty
  | cons head block rest found empty same tail =>
      refine ⟨block, found, empty, same, fun other => ?_⟩
      by_cases own : other = pool
      · subst own
        refine ⟨rest, by rw [Function.update_self]; exact tail, (List.nodup_cons.mp distinct).2, ?_⟩
        rintro place member rfl
        exact (List.nodup_cons.mp distinct).1 member
      · obtain ⟨chain, linked, distinct, _⟩ := free other
        refine ⟨chain, by rw [Function.update_of_ne own]; exact linked, distinct, ?_⟩
        rintro place member rfl
        obtain ⟨again, twice, _, pool'⟩ := linked.empty member
        rw [found] at twice
        rw [← Option.some.inj twice, same] at pool'
        exact own pool'.symm

/-- A block without data. -/
def Block.fresh (pool : Fin numDiskPools) : Block where
  status := .reserved
  pool := pool
  payload := List.replicate (getPoolSize pool) 0
  whole := List.length_replicate

theorem writeAt_before (main more : List UInt8) (offset : Nat) (buf : List UInt8)
    (inside : offset + buf.length ≤ main.length) :
    writeAt (main ++ more) offset buf = writeAt main offset buf ++ more := by
  apply List.ext_getElem?
  intro position
  have length := writeAt_length main buf offset inside
  rw [writeAt_getElem? _ _ _ (by rw [List.length_append]; omega), List.getElem?_append,
    List.getElem?_append, length, writeAt_getElem? _ _ _ (by omega)]
  by_cases within : offset ≤ position ∧ position < offset + buf.length
  · rw [if_pos within, if_pos within, if_pos (by omega)]
  · rw [if_neg within, if_neg within]

/-- A longer main file keeps the scratch file quiet. -/
theorem ScratchQuiet.grow {main rest : List UInt8} (quiet : ScratchQuiet main rest) (more : List UInt8) :
    ScratchQuiet (main ++ more) rest where
  safe := quiet.safe
  replay offset buf found := by
    obtain ⟨inside, same⟩ := quiet.replay offset buf found
    rw [List.length_append, writeAt_before main more offset buf inside, same]
    exact ⟨by omega, rfl⟩

theorem MainHeader.grow {main : List UInt8} (header : MainHeader main) (more : List UInt8)
    (short : (main ++ more).length < offsetLimit) : MainHeader (main ++ more) where
  version := by
    have reserved := header.reserved
    unfold storageInitialReserved at reserved
    rw [List.take_append_of_le_length (by omega), header.version]
  reserved := by
    have reserved := header.reserved
    rw [List.length_append]
    omega
  short := short

theorem DiskFiles.grow (files : DiskFiles store blocks) {after : DiskStorage} (block : Block)
    (main : after.fd.bytes = store.fd.bytes ++ block.image)
    (scratch : after.scratchFd.bytes = store.scratchFd.bytes)
    (eof : after.eofOffset = store.eofOffset + block.span)
    (short : store.fd.bytes.length + block.span < offsetLimit) : DiskFiles after (blocks ++ [block]) where
  header := by
    rw [main]
    exact files.header.grow _ (by rw [List.length_append, Block.image_length]; exact short)
  body := by
    rw [main, List.drop_append_of_le_length files.header.reserved, files.body]
    simp
  eofOffset := by rw [eof, main, List.length_append, Block.image_length, files.eofOffset]
  scratch := by
    obtain ⟨rest, held, quiet, small⟩ := files.scratch
    exact ⟨rest, scratch.trans held, by rw [main]; exact quiet.grow _, small⟩

/-- The two bytes that a new block starts with. -/
def freshHeader (n : Nat) : List UInt8 := [BlockStatus.reserved.code, UInt8.ofNat (poolOf n)]

/-- The writes of `disk_storage_reserve_block` that extend the main file. -/
def growFile (n eof : Nat) : DiskM Nat := do
  mustWrite .fd (freshHeader n)
  let _ ← mustLseek .fd (eof + (blockHeaderSize + getPoolSize (poolOf n)) - 1) .set
  mustWrite .fd [0]
  pure eof

/-- Without a free block the reservation extends the main file. -/
theorem reserveBlock_grow_eq (header : MainHeader store.fd.bytes)
    (eof : store.eofOffset = store.fd.bytes.length) (n : Nat) (more : 1 < n)
    (small : n ≤ 2 ^ 26) (none : store.nextFreeBlock (poolOf n) = 0) :
    ∃ middle, diskStorageReserveBlock n store = growFile n store.eofOffset middle ∧
      middle.fd = ⟨store.fd.bytes, store.fd.bytes.length⟩ ∧ middle.scratchFd = store.scratchFd ∧
      middle.eofOffset = store.eofOffset + (blockHeaderSize + getPoolSize (poolOf n)) ∧
      middle.nextFreeBlock = store.nextFreeBlock ∧ middle.numBeforeCrash = store.numBeforeCrash := by
  have known := Nat.not_le.mpr (poolOf_lt n small)
  have reserved : storageInitialReserved ≤ store.eofOffset := by
    rw [eof]
    exact header.reserved
  have short : store.eofOffset < offsetLimit := by
    rw [eof]
    exact header.short
  unfold diskStorageReserveBlock
  rw [EStateM.bind_ok (getPoolId_run n more (by omega))]
  dsimp only
  rw [if_neg known, EStateM.bind_ok (EStateM.get_apply store), if_neg (not_not.mpr none),
    require_bind reserved, EStateM.bind_ok (EStateM.modify_apply _ _),
    EStateM.bind_ok (mustLseek_run store.eofOffset .set short)]
  refine ⟨_, rfl, ?_⟩
  rw [fd_withFile, ← eof]
  exact ⟨rfl, rfl, rfl, rfl, rfl⟩

/-- The bytes of a new block, with the gap before its last byte. -/
theorem writeAt_fresh (main : List UInt8) (n : Nat) (small : n ≤ 2 ^ 26) :
    writeAt (main ++ freshHeader n) (main.length + (blockHeaderSize + getPoolSize (poolOf n)) - 1) [0] =
      main ++ (Block.fresh ⟨poolOf n, poolOf_lt n small⟩).image := by
  have size := getPoolSize_ge (poolOf n)
  have place : main.length + (blockHeaderSize + getPoolSize (poolOf n)) - 1 =
      (main ++ freshHeader n).length + (getPoolSize (poolOf n) - 1) := by
    rw [List.length_append, blockHeaderSize, freshHeader]
    simp
    omega
  have zeros : List.replicate (getPoolSize (poolOf n) - 1) (0 : UInt8) ++ [0] =
      List.replicate (getPoolSize (poolOf n)) 0 := by
    rw [← List.replicate_succ', Nat.sub_add_cancel (by omega)]
  rw [place, writeAt_gap _ _ _ (by simp), zeros, List.append_assoc]
  rfl

/-- The file after a part of the growth. Two bytes are the header, the third one is the last byte of
the payload. -/
def grownImage (main : List UInt8) (n : Nat) (small : n ≤ 2 ^ 26) (count : Nat) : List UInt8 :=
  if count < 3 then main ++ (freshHeader n).take count
  else main ++ (Block.fresh ⟨poolOf n, poolOf_lt n small⟩).image

/-- The growth is complete, or the process has stopped after at most three bytes. -/
theorem growFile_ends (main : List UInt8) (n : Nat) (small : n ≤ 2 ^ 26)
    (fd : store.fd = ⟨main, main.length⟩)
    (room : main.length + (blockHeaderSize + getPoolSize (poolOf n)) < offsetLimit) :
    (growFile n main.length).Ends store
      (fun offset after => offset = main.length ∧ after.fd.bytes = grownImage main n small 3 ∧
        after.scratchFd = store.scratchFd ∧ SameBooks store after ∧
        ∀ count, store.numBeforeCrash = some count → 3 < count)
      (fun failure after => failure = .abort .crashTest ∧ after.scratchFd = store.scratchFd ∧
        ∃ count, store.numBeforeCrash = some count ∧ count ≤ 3 ∧
          after.fd.bytes = grownImage main n small count) := by
  have size := getPoolSize_ge (poolOf n)
  have header : (freshHeader n).length = 2 := rfl
  have pos : (store.file .fd).pos = main.length := by rw [DiskStorage.file, fd]
  have bytes : (store.file .fd).bytes = main := by rw [DiskStorage.file, fd]
  unfold blockHeaderSize at room
  have space : (store.file .fd).pos + (freshHeader n).length < offsetLimit := by
    rw [pos, header]
    omega
  have whole : writeAt main main.length (freshHeader n) = main ++ freshHeader n := writeAt_end _ _
  have first := mustWrite_counts (freshHeader n) (by simp [freshHeader]) space
  rw [pos, bytes, whole] at first
  unfold growFile
  apply EStateM.Ends.bind (first.mono (fun _ _ done => done) ?_)
  · rintro _ middle ⟨updates, counted⟩
    have fd' : middle.file .fd = ⟨main ++ freshHeader n, main.length + 2⟩ := updates.changed
    have target : main.length + (blockHeaderSize + getPoolSize (poolOf n)) - 1 < offsetLimit := by
      unfold blockHeaderSize
      omega
    apply mustLseek_then (main.length + (blockHeaderSize + getPoolSize (poolOf n)) - 1) target
    rw [fd']
    have second := @mustWrite_counts (middle.withFile ⟨main ++ freshHeader n,
      main.length + (blockHeaderSize + getPoolSize (poolOf n)) - 1⟩ .fd) .fd [0] (by decide) (by
        rw [file_withFile]
        change main.length + (blockHeaderSize + getPoolSize (poolOf n)) - 1 + 1 < offsetLimit
        unfold blockHeaderSize
        omega)
    rw [file_withFile, writeAt_fresh main n small] at second
    have scratch : middle.scratchFd = store.scratchFd := updates.kept .scratchFd (by decide)
    have books := updates.toSameBooks.trans (updates_withFile middle ⟨main ++ freshHeader n,
      main.length + (blockHeaderSize + getPoolSize (poolOf n)) - 1⟩ .fd).toSameBooks
    apply EStateM.Ends.bind (second.mono (fun _ _ done => done) ?_)
    · rintro _ final ⟨again, recounted⟩
      refine EStateM.ends_of_ok rfl ⟨rfl, ?_, ?_, books.trans again.toSameBooks, ?_⟩
      · exact congrArg File.bytes again.changed
      · exact (again.kept .scratchFd (by decide)).trans scratch
      · intro count armed
        obtain ⟨over2, left⟩ := counted count armed
        obtain ⟨over1, _⟩ := recounted _ (by rw [numBeforeCrash_withFile]; exact left)
        simp only [List.length_singleton] at over1
        omega
    · rintro failure final ⟨crash, rest, armed, few, again⟩
      refine ⟨crash, (again.kept .scratchFd (by decide)).trans scratch, ?_⟩
      rw [numBeforeCrash_withFile] at armed
      cases budget : store.numBeforeCrash with
      | none =>
          rw [updates.quiet budget] at armed
          cases armed
      | some count =>
          obtain ⟨over2, left⟩ := counted count budget
          rw [left] at armed
          obtain rfl := Option.some.inj armed
          rw [List.length_singleton] at few
          obtain rfl : count = 3 := by omega
          refine ⟨3, rfl, le_rfl, ?_⟩
          have changed : final.fd.bytes = _ := congrArg File.bytes again.changed
          rw [changed, grownImage, if_neg (by decide), ← writeAt_fresh main n small]
          rfl
  · rintro failure final ⟨crash, count, armed, few, updates⟩
    refine ⟨crash, updates.kept .scratchFd (by decide), count, armed, by rw [header] at few; omega, ?_⟩
    have changed : final.fd.bytes = _ := congrArg File.bytes updates.changed
    rw [changed, grownImage, if_pos (by rw [header] at few; omega), ← writeAt_end]

/-- A free block is taken from its list without a write. -/
theorem reserveBlock_free (holds : DiskHolds store blocks) (n : Nat) (more : 1 < n) (small : n ≤ 2 ^ 26)
    (some : store.nextFreeBlock (poolOf n) ≠ 0) :
    ∃ front block back after, blocks = front ++ block :: back ∧ block.status = .empty ∧
      block.pool = poolOf n ∧ store.nextFreeBlock (poolOf n) = storageInitialReserved + spanOf front ∧
      diskStorageReserveBlock n store = .ok (storageInitialReserved + spanOf front) after ∧
      FreeLists (blockAt blocks) after.nextFreeBlock
        (fun place => place = storageInitialReserved + spanOf front) ∧
      after.fd.bytes = store.fd.bytes ∧ after.scratchFd = store.scratchFd ∧
      after.eofOffset = store.eofOffset ∧ after.numBeforeCrash = store.numBeforeCrash ∧
      after.nextFreeBlock =
        Function.update store.nextFreeBlock (poolOf n) (valueOf (block.payload.take 8)) := by
  have known := Nat.not_le.mpr (poolOf_lt n small)
  obtain ⟨block, found, empty, pool, rest⟩ := holds.free.pop some
  obtain ⟨front, back, split, place⟩ := (blockAt_eq_some _ _ _).mp found
  obtain ⟨_, short⟩ := holds.toDiskFiles.bounds split
  have size := getPoolSize_ge block.pool
  have reserved : storageInitialReserved ≤ store.nextFreeBlock (poolOf n) := by omega
  obtain ⟨reads, length⟩ := holds.toDiskFiles.read_payload split 8 (by omega)
  have seek : mustLseek .fd (store.nextFreeBlock (poolOf n) + blockHeaderSize) .set store =
      .ok (store.nextFreeBlock (poolOf n) + blockHeaderSize) (store.withFile
        ⟨store.fd.bytes, storageInitialReserved + spanOf front + blockHeaderSize⟩ .fd) := by
    rw [place]
    apply mustLseek_run _ .set
    change storageInitialReserved + spanOf front + blockHeaderSize < offsetLimit
    unfold Block.span at short
    omega
  have next : mustRead .fd 8 (store.withFile
      ⟨store.fd.bytes, storageInitialReserved + spanOf front + blockHeaderSize⟩ .fd) =
        .ok (block.payload.take 8) (store.withFile
          ⟨store.fd.bytes, storageInitialReserved + spanOf front + blockHeaderSize + 8⟩ .fd) := by
    unfold mustRead
    rw [EStateM.bind_ok reads, require_bind length]
    rfl
  unfold diskStorageReserveBlock
  rw [EStateM.bind_ok (getPoolId_run n more (by omega))]
  dsimp only
  rw [if_neg known, EStateM.bind_ok (EStateM.get_apply store), if_pos some, require_bind reserved,
    EStateM.bind_ok seek, EStateM.bind_ok next, EStateM.bind_ok (EStateM.modify_apply _ _), place]
  rw [place] at rest
  exact ⟨front, block, back, _, split, empty, pool, rfl, rfl, rest, rfl, rfl, rfl, rfl, rfl⟩

/-- A store whose free lists still hold after one of its held blocks is written. -/
theorem DiskHolds.replaced {after : DiskStorage} {front back : List Block} {block new : Block}
    (files : DiskFiles after (front ++ new :: back)) (same : new.span = block.span)
    (free : FreeLists (blockAt (front ++ block :: back)) after.nextFreeBlock
      fun place => place = storageInitialReserved + spanOf front) :
    DiskHolds after (front ++ new :: back) :=
  ⟨files, by rw [blockAt_replace front back block new same]; exact (free.update new).drop⟩

/-- Reserving and writing a block that was free. -/
theorem reserveAndWrite_free (holds : DiskHolds store blocks) (status : BlockStatus)
    (live : status = .valid ∨ status = .active) (buf : List UInt8) (more : 1 < buf.length)
    (small : buf.length ≤ 2 ^ 26) (some : store.nextFreeBlock (poolOf buf.length) ≠ 0) :
    ∃ front block back, ∃ (fits : buf.length ≤ getPoolSize block.pool),
      blocks = front ++ block :: back ∧ block.status = .empty ∧ block.pool = poolOf buf.length ∧
      store.nextFreeBlock (poolOf buf.length) = storageInitialReserved + spanOf front ∧
      (diskStorageReserveAndWriteBlock status buf).Ends store
        (fun offset after => offset = storageInitialReserved + spanOf front ∧
          DiskHolds after (front ++ block.overwrite status buf fits :: back) ∧
          (store.numBeforeCrash = none → after.numBeforeCrash = none) ∧
          after.nextFreeBlock =
            Function.update store.nextFreeBlock (poolOf buf.length) (valueOf (block.payload.take 8)))
        (Crashed store (LeftRecoverable store.fd.bytes (storageInitialReserved + spanOf front)
          (blockRecord block status buf) scratchBound)) := by
  obtain ⟨front, block, back, middle, split, empty, pool, place, run, free, main, scratch, eof, budget, popped⟩ :=
    reserveBlock_free holds buf.length more small some
  have fits : buf.length ≤ getPoolSize block.pool := by
    rw [pool]
    exact le_getPoolSize_poolOf buf.length
  refine ⟨front, block, back, fits, split, empty, pool, place, ?_⟩
  have files : DiskFiles middle blocks :=
    holds.toDiskFiles.moved main (congrArg File.bytes scratch) eof
  have written := writeBlock_ends files split status live buf fits
  rw [main] at written
  unfold diskStorageReserveAndWriteBlock
  apply EStateM.ends_bind_ok run
  apply EStateM.Ends.bind (written.mono (fun _ _ done => done) ?_)
  · rintro _ after ⟨final, books⟩
    refine EStateM.ends_of_ok rfl ⟨rfl, @DiskHolds.replaced after front back block _ final rfl ?_, ?_, ?_⟩
    · rw [books.nextFreeBlock, ← split]
      exact free
    · intro quiet
      exact books.quiet (budget.trans quiet)
    · exact books.nextFreeBlock.trans popped
  · rintro failure after ⟨crash, armed, left⟩
    exact ⟨crash, fun quiet => armed (budget.trans quiet), left⟩

/-- Reserving and writing a block at the end of the main file. -/
theorem reserveAndWrite_grow (holds : DiskHolds store blocks) (status : BlockStatus)
    (live : status = .valid ∨ status = .active) (buf : List UInt8) (more : 1 < buf.length)
    (small : buf.length ≤ 2 ^ 26) (none : store.nextFreeBlock (poolOf buf.length) = 0)
    (room : store.fd.bytes.length + (blockHeaderSize + getPoolSize (poolOf buf.length)) < offsetLimit) :
    (diskStorageReserveAndWriteBlock status buf).Ends store
      (fun offset after => offset = store.fd.bytes.length ∧
        DiskHolds after (blocks ++ [(Block.fresh ⟨poolOf buf.length, poolOf_lt _ small⟩).overwrite status
          buf (le_getPoolSize_poolOf _)]) ∧
        (store.numBeforeCrash = Option.none → after.numBeforeCrash = Option.none) ∧
        after.nextFreeBlock = store.nextFreeBlock)
      (fun failure after => failure = .abort .crashTest ∧
        ∃ count, store.numBeforeCrash = some count ∧
          (count ≤ 3 ∧ after.scratchFd = store.scratchFd ∧
            after.fd.bytes = grownImage store.fd.bytes buf.length small count ∨
          3 < count ∧ LeftRecoverable (grownImage store.fd.bytes buf.length small 3)
            store.fd.bytes.length
            (blockRecord (Block.fresh ⟨poolOf buf.length, poolOf_lt _ small⟩) status buf)
            scratchBound after)) := by
  have files := holds.toDiskFiles
  have eof := files.eofOffset
  have place : storageInitialReserved + spanOf blocks = store.fd.bytes.length := files.length.symm
  obtain ⟨middle, same, fd, scratch, grown, next, budget⟩ :=
    reserveBlock_grow_eq files.header eof buf.length more small none
  have growth := growFile_ends store.fd.bytes buf.length small fd room
  rw [← eof] at growth
  unfold diskStorageReserveAndWriteBlock
  apply EStateM.Ends.bind ((EStateM.ends_of_eq same growth).mono (fun _ _ done => done) ?_)
  · rintro offset after ⟨rfl, main, kept, books, counted⟩
    have image : grownImage store.fd.bytes buf.length small 3 =
        store.fd.bytes ++ (Block.fresh ⟨poolOf buf.length, poolOf_lt _ small⟩).image := rfl
    have held : DiskFiles after (blocks ++ [Block.fresh ⟨poolOf buf.length, poolOf_lt _ small⟩]) := by
      apply files.grow
      · rw [main, image]
      · rw [kept, scratch]
      · rw [books.eofOffset, grown]
        rfl
      · exact room
    have written := writeBlock_ends held rfl status live buf (le_getPoolSize_poolOf _)
    rw [main, place, ← eof] at written
    apply EStateM.Ends.bind (written.mono (fun _ _ done => done) ?_)
    · rintro _ last ⟨final, same⟩
      refine EStateM.ends_of_ok rfl ⟨eof, ⟨final, ?_⟩, ?_, ?_⟩
      · rw [same.nextFreeBlock, books.nextFreeBlock, next, blockAt_concat, place]
        refine FreeLists.drop (FreeLists.update (holds.free.hold ?_) _)
        intro block found
        rw [← place, blockAt_end] at found
        cases found
      · intro quiet
        exact same.quiet (books.quiet (budget.trans quiet))
      · rw [same.nextFreeBlock, books.nextFreeBlock, next]
    · rintro failure last ⟨crash, armed, left⟩
      cases test : store.numBeforeCrash with
      | none => exact absurd (books.quiet (budget.trans test)) armed
      | some count =>
          refine ⟨crash, count, rfl, Or.inr ⟨counted count (budget.trans test), ?_⟩⟩
          rw [← eof]
          exact left
  · rintro failure after ⟨crash, kept, count, armed, few, main⟩
    exact ⟨crash, count, budget.symm.trans armed, Or.inl ⟨few, kept.trans scratch, main⟩⟩

end Menoetius
