import Menoetius.Tsc
import Menoetius.Lib.FileImage

/-
This file models `disk_storage.c`, with `maybe_write_` of `crash_test.c` and the macros that all of
its reads and writes go through.
-/

namespace Menoetius
open FileImage LittleEndian

/-- An open file: its bytes and the position of the descriptor. -/
structure File where
  bytes : List UInt8
  pos : Nat
  deriving DecidableEq, Repr

inductive Handle where
  | fd
  | scratchFd
  deriving DecidableEq, Repr

/-- The open store. `numBeforeCrash` is `crash_test_num_before_crash` under `CRASH_TEST_WRITE`. -/
structure DiskStorage where
  fd : File
  scratchFd : File
  eofOffset : Nat
  nextFreeBlock : Nat → Nat
  numBeforeCrash : Option Nat

abbrev DiskM := EStateM Failure DiskStorage

def DiskStorage.file (store : DiskStorage) : Handle → File
  | .fd => store.fd
  | .scratchFd => store.scratchFd

def DiskStorage.withFile (store : DiskStorage) (file : File) : Handle → DiskStorage
  | .fd => { store with fd := file }
  | .scratchFd => { store with scratchFd := file }

inductive Whence where
  | set
  | cur
  | fromEnd
  deriving DecidableEq, Repr

/-- The first offset that `off_t` does not hold. -/
def offsetLimit : Nat := 2 ^ 63

def lseekTarget (file : File) (offset : Nat) : Whence → Nat
  | .set => offset
  | .cur => file.pos + offset
  | .fromEnd => file.bytes.length + offset

/-- The call fails without moving when the target is not an `off_t`. -/
def lseek (handle : Handle) (offset : Nat) (whence : Whence) : DiskM (Option Nat) := do
  let store ← get
  let file := store.file handle
  let target := lseekTarget file offset whence
  if target < offsetLimit then
    set (store.withFile { file with pos := target } handle)
    pure (some target)
  else
    pure none

def mustLseek (handle : Handle) (offset : Nat) (whence : Whence) : DiskM Nat := do
  match ← lseek handle offset whence with
  | some target => pure target
  | none => throw (.abort .lseek)

/-- A read returns fewer bytes at the end of the file. -/
def read (handle : Handle) (count : Nat) : DiskM (List UInt8) := do
  let store ← get
  let file := store.file handle
  let data := readAt file.bytes file.pos count
  set (store.withFile { file with pos := file.pos + data.length } handle)
  pure data

def mustRead (handle : Handle) (count : Nat) : DiskM (List UInt8) := do
  let data ← read handle count
  require (data.length = count) .mustRead
  pure data

/-- A write that would pass the largest offset fails. -/
def write (handle : Handle) (data : List UInt8) : DiskM Unit := do
  let store ← get
  let file := store.file handle
  require (file.pos + data.length < offsetLimit) .fileTooLarge
  set (store.withFile ⟨writeAt file.bytes file.pos data, file.pos + data.length⟩ handle)

def maybeWrite (handle : Handle) (data : List UInt8) : DiskM Unit := do
  match (← get).numBeforeCrash with
  | none => write handle data
  | some count =>
      if data.length < count then
        modify fun store => { store with numBeforeCrash := some (count - data.length) }
        write handle data
      else
        write handle (data.take count)
        throw (.abort .crashTest)

/-- The macro does not call `write` at all when there is nothing to write. -/
def mustWrite (handle : Handle) (data : List UInt8) : DiskM Unit :=
  if data = [] then pure () else maybeWrite handle data

inductive BlockStatus where
  | empty
  | reserved
  | valid
  | active
  deriving DecidableEq, Repr

def BlockStatus.code : BlockStatus → UInt8
  | .empty => 0
  | .reserved => 1
  | .valid => 2
  | .active => 3

def storageInitialReserved : Nat := 64
def blockHeaderSize : Nat := 2
def numDiskPools : Nat := 20
def minDiskPowTwo : Nat := 7
def blockNumStatuses : Nat := 4

def version : Nat := 1560537772

def invalidOffset : Nat := 0xFFFFFFFFFFFFFFFF

/-- The pool and its block size. The builtin and the shift are undefined for other sizes. -/
def getPoolId (n : Nat) : DiskM (Nat × Nat) := do
  require (1 < n) .getPoolId
  let pow := max (64 - builtinClzll (BitVec.ofNat 64 (n - 1))) minDiskPowTwo
  require (pow < 63 ∧ n ≤ 2 ^ pow) .getPoolId
  pure (pow - minDiskPowTwo, 2 ^ pow)

def getPoolSize (poolId : Nat) : Nat := 2 ^ (poolId + minDiskPowTwo)

def diskStorageWriteBlockForReal (offset : Nat) (buf : List UInt8) : DiskM Unit := do
  let _ ← mustLseek .fd offset .set
  mustWrite .fd buf

/-- The checksum does not read the data. -/
def diskStorageGetChecksum (offset : Nat) : Nat := (~~~ BitVec.ofNat 64 offset).toNat

def scratchHeader (first second : Nat) : List UInt8 := bytesOf 8 first ++ bytesOf 8 second

def diskStorageRecoverScratch : DiskM Unit := do
  let eof ← mustLseek .scratchFd 0 .fromEnd
  let start ← mustLseek .scratchFd 0 .set
  require (start = 0) .recoverSeek
  let actualVersion ← read .scratchFd 8
  if actualVersion.length = 0 then
    mustWrite .scratchFd (bytesOf 8 version)
  else if valueOf actualVersion ≠ version then
    throw (.code (.res 1))
  else if eof = 8 then
    pure ()
  else
    let header ← read .scratchFd 16
    if header.length ≠ 16 then throw (.code (.res 1))
    else if valueOf (header.take 8) = invalidOffset then pure ()
    else
      let offset := valueOf (header.take 8)
      let actualChecksum := valueOf (header.drop 8)
      let bufN ← read .scratchFd 8
      if bufN.length ≠ 8 then throw (.code (.res 1))
      else
        let buf ← read .scratchFd (valueOf bufN)
        if buf.length ≠ valueOf bufN then throw (.code (.res 1))
        else if actualChecksum ≠ diskStorageGetChecksum offset then throw (.code (.res 1))
        else
          diskStorageWriteBlockForReal offset buf
          let _ ← mustLseek .scratchFd 8 .set
          mustWrite .scratchFd (scratchHeader invalidOffset invalidOffset)

/-- The store begins with no free blocks, whatever the file holds. -/
def diskStorageOpen : DiskM Unit := do
  modify fun store =>
    { store with
      fd := ⟨store.fd.bytes, 0⟩, scratchFd := ⟨store.scratchFd.bytes, 0⟩, eofOffset := 0
      nextFreeBlock := fun _ => 0 }
  match ← lseek .fd 0 .fromEnd with
  | none => throw (.code (.res 1))
  | some endPosition =>
      let _ ← lseek .fd 0 .set
      let actualVersion ← read .fd 8
      if actualVersion.length = 0 then
        require (endPosition = 0) .openEndPosition
        mustWrite .fd (bytesOf 8 version)
        modify fun store => { store with eofOffset := storageInitialReserved }
        let _ ← mustLseek .fd (storageInitialReserved - 1) .set
        mustWrite .fd [0]
      else if actualVersion.length ≠ 8 then
        throw (.code (.res 1))
      else if valueOf actualVersion ≠ version then
        throw (.code (.res 1))
      else
        let eofOffset ← mustLseek .fd 0 .fromEnd
        modify fun store => { store with eofOffset := eofOffset }
        require (storageInitialReserved ≤ eofOffset) .openEofOffset
      -- a failed recovery is only logged
      let _ ← resultCode diskStorageRecoverScratch
      pure ()

/-- A block that `disk_storage_read_blocks_from_start` returns. -/
structure BlockRead where
  offset : Nat
  status : UInt8
  buf : List UInt8
  deriving DecidableEq, Repr

/-- The loop skips empty and reserved blocks. Each round moves the descriptor forward, so the fuel
of the caller is never the reason to stop. -/
def readBlocksLoop (maxN : Nat) : Nat → DiskM (Option BlockRead)
  | 0 => pure none
  | fuel + 1 => do
      let off ← mustLseek .fd 0 .cur
      require (0 < off) .readBlocksOffset
      let header ← read .fd blockHeaderSize
      if header.length = 0 then pure none
      else if header.length ≠ blockHeaderSize then throw (.code (.res 1))
      else if blockNumStatuses ≤ (header.getD 0 0).toNat ∨ numDiskPools ≤ (header.getD 1 0).toNat then
        throw (.code (.res 1))
      else
        let blockSize := getPoolSize (header.getD 1 0).toNat
        if maxN < blockSize then throw (.code (.res 2))
        else if header.getD 0 0 = BlockStatus.valid.code ∨ header.getD 0 0 = BlockStatus.active.code then
          let buf ← read .fd blockSize
          require (buf.length = blockSize) .readBlocksShort
          pure (some ⟨off, header.getD 0 0, buf⟩)
        else
          let _ ← mustLseek .fd blockSize .cur
          readBlocksLoop maxN fuel

/-- The result is `none` at the end of the file, where the source sets the length to zero. -/
def diskStorageReadBlocksFromStart (initial : Bool) (maxN : Nat) : DiskM (Option BlockRead) := do
  if initial then
    let _ ← mustLseek .fd storageInitialReserved .set
  readBlocksLoop maxN ((← get).fd.bytes.length + 1)

/-- The result is the status and the whole block. -/
def diskStorageReadBlock (offset maxN : Nat) : DiskM (UInt8 × List UInt8) := do
  let _ ← mustLseek .fd offset .set
  let header ← read .fd blockHeaderSize
  require (header.length = blockHeaderSize) .readBlockHeader
  if header.getD 0 0 = BlockStatus.empty.code then throw (.code (.res 1))
  else
    let blockSize := getPoolSize (header.getD 1 0).toNat
    if maxN < blockSize then throw (.code (.res 2))
    else
      let buf ← read .fd blockSize
      require (buf.length = blockSize) .readBlockShort
      pure (header.getD 0 0, buf)

def diskStorageWriteScratch (offset : Nat) (buf : List UInt8) : DiskM Unit := do
  let start ← mustLseek .scratchFd 8 .set
  require (start = 8) .writeScratchSeek
  mustWrite .scratchFd (scratchHeader invalidOffset invalidOffset)
  mustWrite .scratchFd (bytesOf 8 buf.length)
  mustWrite .scratchFd buf
  let _ ← mustLseek .scratchFd 8 .set
  mustWrite .scratchFd (scratchHeader offset (diskStorageGetChecksum offset))

def diskStorageWriteBlock (offset : Nat) (blockStatus : BlockStatus) (buf : List UInt8) :
    DiskM Unit := do
  require (0 < offset) .writeBlockOffset
  require (blockStatus = .valid ∨ blockStatus = .active) .writeBlockStatus
  let _ ← mustLseek .fd offset .set
  let header ← read .fd blockHeaderSize
  require (header.length = blockHeaderSize) .writeBlockHeader
  require (buf.length ≤ getPoolSize (header.getD 1 0).toNat) .writeBlockSize
  let scratchBuf := [blockStatus.code, header.getD 1 0] ++ buf
  diskStorageWriteScratch offset scratchBuf
  diskStorageWriteBlockForReal offset scratchBuf

def diskStorageReserveBlock (n : Nat) : DiskM Nat := do
  let (poolId, blockSize) ← getPoolId n
  if numDiskPools ≤ poolId then throw (.code (.res 1))
  else
    let store ← get
    if store.nextFreeBlock poolId ≠ 0 then
      let offset := store.nextFreeBlock poolId
      require (storageInitialReserved ≤ offset) .reserveBlockOffset
      let _ ← mustLseek .fd (offset + blockHeaderSize) .set
      let next ← mustRead .fd 8
      modify fun store =>
        { store with nextFreeBlock := Function.update store.nextFreeBlock poolId (valueOf next) }
      pure offset
    else
      let offset := store.eofOffset
      require (storageInitialReserved ≤ offset) .reserveBlockOffset
      let eofOffset := offset + (blockHeaderSize + blockSize)
      modify fun store => { store with eofOffset := eofOffset }
      let _ ← mustLseek .fd offset .set
      mustWrite .fd [BlockStatus.reserved.code, UInt8.ofNat poolId]
      let _ ← mustLseek .fd (eofOffset - 1) .set
      mustWrite .fd [0]
      pure offset

def diskStorageReserveAndWriteBlock (blockStatus : BlockStatus) (buf : List UInt8) : DiskM Nat := do
  let offset ← diskStorageReserveBlock buf.length
  diskStorageWriteBlock offset blockStatus buf
  pure offset

/-- The value of a plain `char`, which is signed. -/
def charValue (byte : UInt8) : Int :=
  if byte.toNat < 128 then byte.toNat else byte.toNat - 256

def diskStorageReleaseBlock (offset : Nat) : DiskM Unit := do
  require (storageInitialReserved ≤ offset) .releaseBlockOffset
  let _ ← mustLseek .fd offset .set
  let header ← mustRead .fd blockHeaderSize
  if blockNumStatuses ≤ charValue (header.getD 0 0) ∨ numDiskPools ≤ charValue (header.getD 1 0) then
    throw (.code (.res 1))
  else
    require (header.getD 0 0 ≠ BlockStatus.empty.code) .releaseBlockEmpty
    let poolId := (header.getD 1 0).toNat
    require (poolId < numDiskPools) .releaseBlockHeader
    let next := (← get).nextFreeBlock poolId
    let buf := [BlockStatus.empty.code, header.getD 1 0] ++ bytesOf 8 next
    diskStorageWriteScratch offset buf
    diskStorageWriteBlockForReal offset buf
    modify fun store => { store with nextFreeBlock := Function.update store.nextFreeBlock poolId offset }

end Menoetius
