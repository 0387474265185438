import Menoetius.DiskLayout

/-
This file describes what each call on a store does to its blocks.
-/

namespace Menoetius
open FileImage LittleEndian

variable {store : DiskStorage} {blocks front back : List Block} {block : Block}

/-- A block with a new status and new bytes at the start of its payload. -/
def Block.overwrite (block : Block) (status : BlockStatus) (buf : List UInt8)
    (fits : buf.length ≤ getPoolSize block.pool) : Block where
  status := status
  pool := block.pool
  payload := buf ++ block.payload.drop buf.length
  whole := by
    have whole := block.whole
    rw [List.length_append, List.length_drop]
    omega

@[simp] theorem Block.overwrite_span (status : BlockStatus) (buf : List UInt8)
    (fits : buf.length ≤ getPoolSize block.pool) : (block.overwrite status buf fits).span = block.span := rfl

/-- The bytes that a logged write puts at the start of a block. -/
def blockRecord (block : Block) (status : BlockStatus) (buf : List UInt8) : List UInt8 :=
  [status.code, UInt8.ofNat block.pool] ++ buf

theorem blockRecord_length (block : Block) (status : BlockStatus) (buf : List UInt8) :
    (blockRecord block status buf).length = 2 + buf.length := by
  simp [blockRecord]
  omega

theorem DiskFiles.bounds (files : DiskFiles store blocks) (split : blocks = front ++ block :: back) :
    storageInitialReserved + spanOf front + block.span ≤ store.fd.bytes.length ∧
      storageInitialReserved + spanOf front + block.span < offsetLimit := by
  have length := files.length
  have short := files.header.short
  rw [split, spanOf_append, spanOf_cons] at length
  omega

theorem DiskFiles.readAt_header (files : DiskFiles store blocks) (split : blocks = front ++ block :: back) :
    readAt store.fd.bytes (storageInitialReserved + spanOf front) blockHeaderSize =
      [block.status.code, UInt8.ofNat block.pool] := by
  obtain ⟨bytes, length⟩ := files.split split
  rw [bytes, readAt, List.drop_left' length]
  rfl

theorem DiskFiles.readAt_payload (files : DiskFiles store blocks) (split : blocks = front ++ block :: back)
    (count : Nat) (within : count ≤ getPoolSize block.pool) :
    readAt store.fd.bytes (storageInitialReserved + spanOf front + blockHeaderSize) count =
      block.payload.take count := by
  obtain ⟨bytes, length⟩ := files.split split
  rw [bytes, readAt, ← List.drop_drop, List.drop_left' length]
  change (block.payload ++ imageOf back).take count = _
  rw [List.take_append_of_le_length (by rw [block.whole]; exact within)]

theorem ofNat_pool (pool : Fin numDiskPools) : (UInt8.ofNat pool).toNat = pool := by
  have small : (pool : Nat) < 20 := pool.isLt
  rw [UInt8.toNat_ofNat']
  omega

/-- The image after a logged write on a block. -/
theorem DiskFiles.written (files : DiskFiles store blocks) (split : blocks = front ++ block :: back)
    (status : BlockStatus) (buf : List UInt8) (fits : buf.length ≤ getPoolSize block.pool) :
    let main := writeAt store.fd.bytes (storageInitialReserved + spanOf front)
      (blockRecord block status buf)
    MainHeader main ∧ main.length = store.fd.bytes.length ∧
      main.drop storageInitialReserved =
        imageOf (front ++ block.overwrite status buf fits :: back) := by
  obtain ⟨bytes, length⟩ := files.split split
  have record : (blockRecord block status buf).length ≤ block.image.length := by
    rw [blockRecord_length, Block.image_length, Block.span, blockHeaderSize]
    omega
  have image : blockRecord block status buf ++ block.image.drop (blockRecord block status buf).length =
      (block.overwrite status buf fits).image := by
    rw [blockRecord_length, Nat.add_comm]
    rfl
  have shape : writeAt store.fd.bytes (storageInitialReserved + spanOf front)
      (blockRecord block status buf) = store.fd.bytes.take storageInitialReserved ++
        imageOf (front ++ block.overwrite status buf fits :: back) := by
    have inside := writeAt_inside (store.fd.bytes.take storageInitialReserved ++ imageOf front)
      block.image (imageOf back) (blockRecord block status buf) record
    rw [length, ← bytes, image] at inside
    rw [inside, imageOf_append, imageOf_cons, List.append_assoc]
  have head : (store.fd.bytes.take storageInitialReserved).length = storageInitialReserved := by
    rw [List.length_take, Nat.min_eq_left files.header.reserved]
  have same : (store.fd.bytes.take storageInitialReserved ++
      imageOf (front ++ block.overwrite status buf fits :: back)).length = store.fd.bytes.length := by
    rw [List.length_append, head, imageOf_length, files.length, split]
    simp
  dsimp only
  rw [shape]
  refine ⟨⟨?_, ?_, ?_⟩, same, ?_⟩
  · rw [List.take_append_of_le_length (by rw [head]; decide), List.take_take,
      Nat.min_eq_left (by decide), files.header.version]
  · rw [same]
    exact files.header.reserved
  · rw [same]
    exact files.header.short
  · rw [List.drop_left' head]

/-- A logged write on a block. -/
theorem DiskFiles.loggedWrite (files : DiskFiles store blocks) (split : blocks = front ++ block :: back)
    (status : BlockStatus) (buf : List UInt8) (fits : buf.length ≤ getPoolSize block.pool) :
    (do diskStorageWriteScratch (storageInitialReserved + spanOf front) (blockRecord block status buf)
        diskStorageWriteBlockForReal (storageInitialReserved + spanOf front)
          (blockRecord block status buf) : DiskM Unit).Ends store
      (fun _ after => DiskFiles after (front ++ block.overwrite status buf fits :: back) ∧
        SameBooks store after)
      (Crashed store (LeftRecoverable store.fd.bytes (storageInitialReserved + spanOf front)
        (blockRecord block status buf) scratchBound)) := by
  obtain ⟨rest, scratch, calm, small⟩ := files.scratch
  obtain ⟨header, length, body⟩ := files.written split status buf fits
  obtain ⟨inside, _⟩ := files.bounds split
  have largest : getPoolSize block.pool ≤ 2 ^ 26 := by
    have below : (block.pool : Nat) < 20 := block.pool.isLt
    exact Nat.pow_le_pow_right (by decide) (by unfold minDiskPowTwo; omega)
  have size := blockRecord_length block status buf
  unfold Block.span blockHeaderSize at inside
  have ends := loggedWrite_ends (storageInitialReserved + spanOf front) (blockRecord block status buf)
    store.fd.bytes rest scratchBound ⟨SameBooks.refl store, rfl, scratch⟩ calm (by omega)
    files.header.short (by unfold scratchBound; omega) small (by unfold scratchBound offsetLimit; omega)
  apply ends.mono
  · rintro _ after ⟨left, held, quiet, few⟩
    refine ⟨⟨?_, ?_, ?_, left, held.rest, ?_, few⟩, held.toSameBooks⟩
    · rw [held.main]
      exact header
    · rw [held.main]
      exact body
    · rw [held.eofOffset, held.main, length]
      exact files.eofOffset
    · rw [held.main]
      exact quiet
  · intro failure after crashed
    exact crashed

/-- The descriptor of the main file after a seek and a read. -/
theorem DiskFiles.seek_read (files : DiskFiles store blocks) (split : blocks = front ++ block :: back) :
    mustLseek .fd (storageInitialReserved + spanOf front) .set store =
        .ok (storageInitialReserved + spanOf front)
          (store.withFile ⟨store.fd.bytes, storageInitialReserved + spanOf front⟩ .fd) ∧
      read .fd blockHeaderSize
          (store.withFile ⟨store.fd.bytes, storageInitialReserved + spanOf front⟩ .fd) =
        .ok [block.status.code, UInt8.ofNat block.pool]
          (store.withFile ⟨store.fd.bytes, storageInitialReserved + spanOf front + blockHeaderSize⟩ .fd) := by
  obtain ⟨_, short⟩ := files.bounds split
  constructor
  · exact mustLseek_run _ .set (by change storageInitialReserved + spanOf front < offsetLimit; omega)
  · rw [read_run, file_withFile, withFile_withFile, files.readAt_header split]
    rfl

theorem DiskFiles.fd_moved (files : DiskFiles store blocks) (pos : Nat) :
    DiskFiles (store.withFile ⟨store.fd.bytes, pos⟩ .fd) blocks :=
  files.moved rfl rfl rfl

theorem status_code_ne_empty {status : BlockStatus} (used : status ≠ .empty) :
    status.code ≠ BlockStatus.empty.code := by
  cases status with
  | empty => exact absurd rfl used
  | reserved => decide
  | valid => decide
  | active => decide

theorem header_length (block : Block) :
    ([block.status.code, UInt8.ofNat block.pool] : List UInt8).length = blockHeaderSize := rfl

theorem header_status (block : Block) :
    ([block.status.code, UInt8.ofNat block.pool] : List UInt8).getD 0 0 = block.status.code := rfl

theorem header_pool (block : Block) :
    ([block.status.code, UInt8.ofNat block.pool] : List UInt8).getD 1 0 = UInt8.ofNat block.pool := rfl

/-- A read behind the header returns the first bytes of the payload. -/
theorem DiskFiles.read_payload (files : DiskFiles store blocks) (split : blocks = front ++ block :: back)
    (count : Nat) (within : count ≤ getPoolSize block.pool) :
    read .fd count
        (store.withFile ⟨store.fd.bytes, storageInitialReserved + spanOf front + blockHeaderSize⟩ .fd) =
      .ok (block.payload.take count) (store.withFile
        ⟨store.fd.bytes, storageInitialReserved + spanOf front + blockHeaderSize + count⟩ .fd) ∧
      (block.payload.take count).length = count := by
  have length : (block.payload.take count).length = count := by
    rw [List.length_take, block.whole, Nat.min_eq_left within]
  refine ⟨?_, length⟩
  rw [read_run, file_withFile, withFile_withFile]
  dsimp only
  rw [files.readAt_payload split count within, length]

/-- Reading a block returns its status and its payload. -/
theorem readBlock_run (files : DiskFiles store blocks) (split : blocks = front ++ block :: back)
    (used : block.status ≠ .empty) (maxN : Nat) (room : getPoolSize block.pool ≤ maxN) :
    ∃ pos, diskStorageReadBlock (storageInitialReserved + spanOf front) maxN store =
      .ok (block.status.code, block.payload) (store.withFile ⟨store.fd.bytes, pos⟩ .fd) := by
  obtain ⟨seek, reads⟩ := files.seek_read split
  obtain ⟨payload, _⟩ := files.read_payload split (getPoolSize block.pool) le_rfl
  rw [List.take_of_length_le (le_of_eq block.whole)] at payload
  refine ⟨storageInitialReserved + spanOf front + blockHeaderSize + getPoolSize block.pool, ?_⟩
  unfold diskStorageReadBlock
  rw [EStateM.bind_ok seek, EStateM.bind_ok reads, require_bind (header_length block), header_status,
    header_pool, if_neg (status_code_ne_empty used), ofNat_pool, if_neg (Nat.not_lt.mpr room),
    EStateM.bind_ok payload, require_bind block.whole]
  rfl

/-- A block that is larger than the buffer is not read. -/
theorem readBlock_large (files : DiskFiles store blocks) (split : blocks = front ++ block :: back)
    (used : block.status ≠ .empty) (maxN : Nat) (large : maxN < getPoolSize block.pool) :
    ∃ after, diskStorageReadBlock (storageInitialReserved + spanOf front) maxN store =
      .error (.code (.res 2)) after := by
  obtain ⟨seek, reads⟩ := files.seek_read split
  unfold diskStorageReadBlock
  rw [EStateM.bind_ok seek, EStateM.bind_ok reads, require_bind (header_length block), header_status,
    header_pool, if_neg (status_code_ne_empty used), ofNat_pool, if_pos large]
  exact ⟨_, rfl⟩

/-- Writing a block changes this block only. -/
theorem writeBlock_ends (files : DiskFiles store blocks) (split : blocks = front ++ block :: back)
    (status : BlockStatus) (live : status = .valid ∨ status = .active) (buf : List UInt8)
    (fits : buf.length ≤ getPoolSize block.pool) :
    (diskStorageWriteBlock (storageInitialReserved + spanOf front) status buf).Ends store
      (fun _ after => DiskFiles after (front ++ block.overwrite status buf fits :: back) ∧
        SameBooks store after)
      (Crashed store (LeftRecoverable store.fd.bytes (storageInitialReserved + spanOf front)
        (blockRecord block status buf) scratchBound)) := by
  obtain ⟨seek, reads⟩ := files.seek_read split
  have positive : 0 < storageInitialReserved + spanOf front := by unfold storageInitialReserved; omega
  unfold diskStorageWriteBlock
  rw [require_bind positive, require_bind live]
  apply EStateM.ends_bind_ok seek
  apply EStateM.ends_bind_ok reads
  rw [require_bind (header_length block), header_pool, ofNat_pool, require_bind fits]
  have books := (updates_withFile store ⟨store.fd.bytes, storageInitialReserved + spanOf front +
    blockHeaderSize⟩ .fd).toSameBooks
  apply ((files.fd_moved (storageInitialReserved + spanOf front + blockHeaderSize)).loggedWrite split
    status buf fits).mono
  · rintro _ after ⟨held, same⟩
    exact ⟨held, books.trans same⟩
  · rintro failure after ⟨crash, armed, left⟩
    exact ⟨crash, fun quiet => armed (books.quiet quiet), left⟩

theorem charValue_small (byte : UInt8) (small : byte.toNat < 128) : charValue byte = byte.toNat :=
  if_pos small

/-- Releasing a block marks it empty and puts it at the head of the free list of its pool. -/
theorem releaseBlock_ends (files : DiskFiles store blocks) (split : blocks = front ++ block :: back)
    (used : block.status ≠ .empty) :
    (diskStorageReleaseBlock (storageInitialReserved + spanOf front)).Ends store
      (fun _ after => DiskFiles after (front ++ block.overwrite .empty
          (bytesOf 8 (store.nextFreeBlock block.pool))
          (by have size := getPoolSize_ge block.pool; rw [bytesOf_length]; omega) :: back) ∧
        after.nextFreeBlock = Function.update store.nextFreeBlock block.pool
          (storageInitialReserved + spanOf front) ∧
        (store.numBeforeCrash = none → after.numBeforeCrash = none))
      (Crashed store (LeftRecoverable store.fd.bytes (storageInitialReserved + spanOf front)
        (blockRecord block .empty (bytesOf 8 (store.nextFreeBlock block.pool))) scratchBound)) := by
  obtain ⟨seek, reads⟩ := files.seek_read split
  have reserved : storageInitialReserved ≤ storageInitialReserved + spanOf front := by omega
  have below : (block.pool : Nat) < 20 := block.pool.isLt
  have pool : (UInt8.ofNat block.pool).toNat = block.pool := ofNat_pool block.pool
  have header : mustRead .fd blockHeaderSize
      (store.withFile ⟨store.fd.bytes, storageInitialReserved + spanOf front⟩ .fd) =
        .ok [block.status.code, UInt8.ofNat block.pool]
          (store.withFile ⟨store.fd.bytes, storageInitialReserved + spanOf front + blockHeaderSize⟩ .fd) := by
    unfold mustRead
    rw [EStateM.bind_ok reads, require_bind (header_length block)]
    rfl
  have good : ¬ ((blockNumStatuses : Int) ≤ charValue block.status.code ∨
      (numDiskPools : Int) ≤ charValue (UInt8.ofNat block.pool)) := by
    rw [charValue_small (UInt8.ofNat block.pool) (by rw [pool]; omega), pool]
    unfold numDiskPools blockNumStatuses
    have status : charValue block.status.code < 4 := by cases block.status <;> decide
    omega
  have known : (block.pool : Nat) < numDiskPools := below
  unfold diskStorageReleaseBlock
  rw [require_bind reserved]
  apply EStateM.ends_bind_ok seek
  apply EStateM.ends_bind_ok header
  rw [header_status, header_pool, if_neg good, require_bind (status_code_ne_empty used), pool,
    require_bind known]
  apply EStateM.ends_bind_ok (EStateM.get_apply _)
  rw [nextFreeBlock_withFile, ← bind_assoc]
  have books := (updates_withFile store ⟨store.fd.bytes, storageInitialReserved + spanOf front +
    blockHeaderSize⟩ .fd).toSameBooks
  have size := getPoolSize_ge block.pool
  have logged := (files.fd_moved (storageInitialReserved + spanOf front + blockHeaderSize)).loggedWrite
    split .empty (bytesOf 8 (store.nextFreeBlock block.pool)) (by rw [bytesOf_length]; omega)
  apply EStateM.Ends.bind (logged.mono (fun _ _ done => done) ?_)
  · rintro _ middle ⟨held, same⟩
    have kept := books.trans same
    refine EStateM.ends_of_ok (EStateM.modify_apply _ _) ⟨held.moved rfl rfl rfl, ?_, kept.quiet⟩
    rw [← kept.nextFreeBlock]
  · rintro failure after ⟨crash, armed, left⟩
    exact ⟨crash, fun quiet => armed (books.quiet quiet), left⟩

end Menoetius
