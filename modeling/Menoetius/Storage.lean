import Menoetius.DiskStorage

/-
This file models `storage.c`: the items in memory, and the two stores that they are written to.
-/

namespace Menoetius
open LittleEndian

structure OffsetAndTime where
  offset : Nat
  startTime : Word
  deriving DecidableEq, Repr

/-- The key is `none` for the placeholders of the loader, where `key_len` is `INVALID_KEY`. -/
structure StorageItem where
  internalId : Nat
  key : Option (List UInt8)
  data : TscHeader
  keyStorageOffset : Nat
  dataOffsets : List OffsetAndTime
  deriving DecidableEq, Repr

/-- The items are those of the tree of internal ids. The ones with a key are also in the other trees and
in the list that starts at `list_root`, in this order. `memory` is what `my_malloc` returns for the
block of each item. -/
structure Storage where
  initialTscBufSize : Nat
  retentionSeconds : Int
  nextInternalId : Nat
  items : List StorageItem
  keyDiskStore : DiskStorage
  dataDiskStore : DiskStorage
  memory : Nat → Nat → UInt8

abbrev StorageM := EStateM Failure Storage

def onKeyStore {α : Type} (action : DiskM α) : StorageM α := fun store =>
  match action store.keyDiskStore with
  | .ok value after => .ok value { store with keyDiskStore := after }
  | .error failure after => .error failure { store with keyDiskStore := after }

def onDataStore {α : Type} (action : DiskM α) : StorageM α := fun store =>
  match action store.dataDiskStore with
  | .ok value after => .ok value { store with dataDiskStore := after }
  | .error failure after => .error failure { store with dataDiskStore := after }

/-- One item together with the store of its blocks. -/
structure ItemStore where
  item : StorageItem
  dataDiskStore : DiskStorage

abbrev ItemM := EStateM Failure ItemStore

def onBlocks {α : Type} (action : DiskM α) : ItemM α := fun state =>
  match action state.dataDiskStore with
  | .ok value after => .ok value { state with dataDiskStore := after }
  | .error failure after => .error failure { state with dataDiskStore := after }

/-- `item->data`. -/
def onData {α : Type} (action : EStateM Failure TscHeader α) : ItemM α := fun state =>
  match action state.item.data with
  | .ok value after => .ok value { state with item := { state.item with data := after } }
  | .error failure after => .error failure { state with item := { state.item with data := after } }

def Storage.withItem (store : Storage) (state : ItemStore) : Storage :=
  { store with
    items := store.items.map fun item =>
      if item.internalId = state.item.internalId then state.item else item
    dataDiskStore := state.dataDiskStore }

/-- The functions that take an item pointer. The internal id stands for the pointer. -/
def onItem {α : Type} (internalId : Nat) (action : ItemM α) : StorageM α := fun store =>
  match store.items.find? fun item => item.internalId = internalId with
  | none => .error (.abort .memory) store
  | some item =>
      match action ⟨item, store.dataDiskStore⟩ with
      | .ok value after => .ok value (store.withItem after)
      | .error failure after => .error failure (store.withItem after)

def invalidKey : Nat := 0xFFFF

/-- A key of the length `INVALID_KEY` counts as no key. -/
def keyOf (key : List UInt8) : Option (List UInt8) := if key.length = invalidKey then none else some key

/-- The result of `tsc_init` is ignored: after a failure the block is uninitialised memory. -/
def storageItemNew (store : Storage) (key : Option (List UInt8)) (internalId : Nat) :
    Except Failure StorageItem :=
  match tscInit store.initialTscBufSize ((List.range store.initialTscBufSize).map (store.memory internalId)) with
  | .ok data => .ok ⟨internalId, key, data, 0, []⟩
  | .error (.code _) => .error (.abort .memory)
  | .error (.abort site) => .error (.abort site)

def storageInsertItem (key : Option (List UInt8)) (internalId : Nat) : StorageM Unit := do
  let item ← ofExcept (storageItemNew (← get) key internalId)
  modify fun store => { store with items := store.items ++ [item] }

def maxBuf : Nat := 10240

def storageWriteKeyAndInternalId (key : List UInt8) (internalId : Nat) : StorageM Unit := do
  if maxBuf < 2 + key.length + 8 then throw (.code (.res 1))
  else
    let buf := bytesOf 2 key.length ++ (key ++ bytesOf 8 internalId)
    let offset ← onKeyStore (diskStorageReserveAndWriteBlock .valid buf)
    onItem internalId (modify fun state => { state with item := { state.item with keyStorageOffset := offset } })

/-- The id grows in an `int64_t`. The result of the key write is ignored. -/
def storageGetItem (key : List UInt8) (insert : Bool) : StorageM Nat := do
  let store ← get
  match store.items.find? fun item => item.key = some key with
  | some item => pure item.internalId
  | none =>
      if insert then do
        require (key.length ≠ 0) .storageGetItemKey
        let internalId := store.nextInternalId
        storageInsertItem (keyOf key) internalId
        require (internalId + 1 ≠ 2 ^ 63) .storageNextInternalId
        modify fun store => { store with nextInternalId := (internalId + 1) % 2 ^ 64 }
        let _ ← resultCode (storageWriteKeyAndInternalId key internalId)
        pure internalId
      else
        throw (.code .lookupFailed)

/-- The bytes that a block of the data store is written with. -/
def storageBlock (item : StorageItem) (completeBlock : Bool) : List UInt8 :=
  bytesOf 8 item.internalId ++
    ((if completeBlock then [] else tscSerializeHeader item.data) ++ item.data.data.toBytes)

/-- The last entry is the block that the item is being written to. -/
def storageWriteDisk (completeBlock : Bool) : ItemM Unit := do
  let item := (← get).item
  require (0 < item.data.data.numPts) .storageWriteDiskPoints
  require (0 < (tscStartTime item.data.data).toInt) .storageWriteDiskTime
  let blockStatus := if completeBlock then BlockStatus.valid else BlockStatus.active
  let offsets := if item.dataOffsets = [] then [⟨0, 0#64⟩] else item.dataOffsets
  modify fun state => { state with item := { state.item with dataOffsets := offsets } }
  let current := offsets.getLastD ⟨0, 0#64⟩
  if current.offset = 0 then
    let offset ← onBlocks (diskStorageReserveAndWriteBlock blockStatus (storageBlock item completeBlock))
    require (0 < offset) .storageWriteDiskOffset
    modify fun state =>
      { state with
        item := { state.item with
          dataOffsets := offsets.dropLast ++ [⟨offset, tscStartTime item.data.data⟩] } }
  else
    require (current.startTime = tscStartTime item.data.data) .storageWriteDiskStart
    onBlocks (diskStorageWriteBlock current.offset blockStatus (storageBlock item completeBlock))
  if completeBlock then
    modify fun state =>
      { state with
        item := { state.item with
          data := tscClear state.item.data
          dataOffsets := state.item.dataOffsets ++ [⟨0, 0#64⟩] } }

/-- One round of the loop of `storage_write`. -/
def storageWritePoint (point : Point) : ItemM Unit := do
  match ← resultCode (onData (tscAdd point.1 point.2)) with
  | none => pure ()
  | some .tscOutOfSpace => do
      storageWriteDisk true
      match ← resultCode (onData (tscAdd point.1 point.2)) with
      | none => pure ()
      | some _ => throw (.abort .storageWriteRetry)
  | some err => throw (.code err)

/-- What a write returns, with the points for which `tsc_add` returned `ERR_OK`. -/
structure Written where
  stored : List Point
  err : Option Err
  deriving DecidableEq, Repr

def storageWriteLoop : List Point → ItemM Written
  | [] => pure ⟨[], none⟩
  | point :: rest => do
      match ← resultCode (storageWritePoint point) with
      | none => do
          let later ← storageWriteLoop rest
          pure ⟨point :: later.stored, later.err⟩
      | some err => pure ⟨[], some err⟩

def storageWrite (key : List UInt8) (points : List Point) : StorageM Written := do
  let internalId ← storageGetItem key true
  onItem internalId (storageWriteLoop points)

/-- The internal ids along the list of items. -/
def Storage.list (store : Storage) : List Nat :=
  (store.items.filter fun item => item.key.isSome).map StorageItem.internalId

def storageSyncLoop : List Nat → StorageM Unit
  | [] => pure ()
  | internalId :: rest => do
      onItem internalId (storageWriteDisk false)
      storageSyncLoop rest

def storageSync : StorageM Unit := do
  storageSyncLoop (← get).list

def storageGetBufN : Nat := 1024 * 1024

/-- The points of a stream behind the points read so far. A stop of the iterator is a stop here. -/
def storageGetPoints (maxNumPts : Nat) (points : List Point) (data : TscData) : Except Failure (List Point) :=
  match tscIterRun data with
  | (more, .code _) =>
      if maxNumPts < points.length + more.length then .error (.code .tooManyPoints) else .ok (points ++ more)
  | (_, .abort site) => .error (.abort site)

/-- The loop over the blocks on disk ends at the active block. -/
def storageGetBlocks (internalId maxNumPts : Nat) : List OffsetAndTime → List Point → DiskM (List Point)
  | [], points => pure points
  | entry :: rest, points =>
      if entry.offset = 0 then storageGetBlocks internalId maxNumPts rest points
      else do
        let (blockStatus, buf) ← mustSucceed (diskStorageReadBlock entry.offset storageGetBufN) .storageGetRead
        if blockStatus = BlockStatus.active.code then
          require (rest = []) .storageGetActive
          pure points
        else
          require (valueOf (buf.take 8) = internalId) .storageGetId
          let points ← ofExcept
            (storageGetPoints maxNumPts points (TscData.ofBytes (buf.drop 8).length (buf.drop 8)))
          storageGetBlocks internalId maxNumPts rest points

/-- The points of an item, on disk and in memory. -/
def storageGetAll (internalId maxNumPts : Nat) : ItemM (List Point) := do
  let item := (← get).item
  let points ← onBlocks (storageGetBlocks internalId maxNumPts item.dataOffsets [])
  ofExcept (storageGetPoints maxNumPts points item.data.data)

def storageGet (key : List UInt8) (maxNumPts : Nat) : StorageM (List Point) := do
  let internalId ← storageGetItem key false
  onItem internalId (storageGetAll internalId maxNumPts)

/-- The blocks before the returned index hold only old points. -/
def trimIndex (t : Int) : Nat → Nat → List OffsetAndTime → ItemM Nat
  | _, saveI, [] => pure saveI
  | i, saveI, entry :: rest =>
      if entry.offset = 0 then do
        require (rest = []) .storageTrimOffset
        pure saveI
      else if entry.startTime.toInt < t then trimIndex t (i + 1) i rest
      else pure saveI

/-- Results of releases are ignored. -/
def trimBlocks : List OffsetAndTime → DiskM Unit
  | [] => pure ()
  | entry :: rest => do
      let _ ← resultCode (diskStorageReleaseBlock entry.offset)
      trimBlocks rest

/-- The result is `should_delete`. -/
def storageTrimAndWriteToDisk (t : Int) : ItemM Bool := do
  let item := (← get).item
  if item.data.lastTimestamp.toInt < t then pure true
  else do
    let saveI ← trimIndex t 0 0 item.dataOffsets
    if 0 < saveI then
      onBlocks (trimBlocks (item.dataOffsets.take saveI))
      require (0 < item.dataOffsets.length - saveI) .storageTrimRemaining
      modify fun state =>
        { state with item := { state.item with dataOffsets := item.dataOffsets.drop saveI } }
    pure false

def deleteBlocks : List OffsetAndTime → DiskM Unit
  | [] => pure ()
  | entry :: rest =>
      if entry.offset = 0 then require (rest = []) .storageDeleteOffset
      else do
        let _ ← resultCode (diskStorageReleaseBlock entry.offset)
        deleteBlocks rest

def storageDeleteItem (internalId : Nat) : StorageM Unit := do
  match (← get).items.find? fun item => item.internalId = internalId with
  | none => throw (.abort .memory)
  | some item => do
      modify fun store => { store with items := store.items.filter fun item => item.internalId ≠ internalId }
      onDataStore (deleteBlocks item.dataOffsets)
      let _ ← resultCode (onKeyStore (diskStorageReleaseBlock item.keyStorageOffset))
      pure ()

def cleanLoop (t : Int) : List Nat → StorageM Unit
  | [] => pure ()
  | internalId :: rest => do
      let shouldDelete ← onItem internalId (storageTrimAndWriteToDisk t)
      if shouldDelete then storageDeleteItem internalId
      cleanLoop t rest

/-- The argument is what `my_time` returns. -/
def cleanItems (now : Int) : StorageM Unit := do
  let store ← get
  cleanLoop (now - store.retentionSeconds) store.list

/-- The entries stay sorted by start time. The flag is `last_block`. -/
def insertOffset (entry : OffsetAndTime) : List OffsetAndTime → List OffsetAndTime × Bool
  | [] => ([entry], true)
  | first :: rest =>
      if entry.startTime.toInt < first.startTime.toInt then (entry :: first :: rest, false)
      else
        let (later, lastBlock) := insertOffset entry rest
        (first :: later, lastBlock)

/-- The item of an internal id without a key. -/
def storagePlaceholder (internalId : Nat) : StorageM Unit := do
  match (← get).items.find? fun item => item.internalId = internalId with
  | none => storageInsertItem none internalId
  | some _ => pure ()

def storageInsertDataBlockDuringInitialLoad (internalId offset : Nat) (startTime : Word) : StorageM Bool := do
  storagePlaceholder internalId
  require (0 < offset) .storageInsertOffset
  onItem internalId do
    let (offsets, lastBlock) := insertOffset ⟨offset, startTime⟩ (← get).item.dataOffsets
    modify fun state => { state with item := { state.item with dataOffsets := offsets } }
    pure lastBlock

def storageLoadMaxN : Nat := 1048576

/-- The block in memory continues the active block. -/
def storageLoadActive (p dataBuf : List UInt8) : ItemM Unit := do
  let data ← ofExcept (tscLoadBlock (← get).item.data p dataBuf)
  modify fun state => { state with item := { state.item with data := data } }

/-- One round of the first loop of `storage_load`. -/
def storageLoadBlock (found : BlockRead) : StorageM Unit := do
  if found.buf.length ≤ 8 + 2 + 8 then throw (.code (.res 1))
  else
    let internalId := valueOf (found.buf.take 8)
    let p := found.buf.drop 8
    require (found.status = BlockStatus.valid.code ∨ found.status = BlockStatus.active.code)
      .storageLoadStatus
    let dataBuf := if found.status = BlockStatus.active.code then p.drop tscHeaderSerializationSize else p
    let startTime := tscStartTime (TscData.ofBytes dataBuf.length dataBuf)
    require (startTime ≠ 0#64) .storageLoadTime
    let lastBlock ← storageInsertDataBlockDuringInitialLoad internalId found.offset startTime
    if found.status = BlockStatus.active.code then
      require lastBlock .storageLoadLastBlock
      onItem internalId (storageLoadActive p dataBuf)

/-- The two loops of `storage_load`. Each round moves the scan forward, so the fuel is never the reason to
stop. -/
def loadBlocks (read : Bool → StorageM (Option BlockRead)) (load : BlockRead → StorageM Unit) :
    Nat → Bool → StorageM Unit
  | 0, _ => pure ()
  | fuel + 1, initial => do
      match ← read initial with
      | none => pure ()
      | some found => do
          load found
          loadBlocks read load fuel false

def storageLoadData : Nat → Bool → StorageM Unit :=
  loadBlocks (fun initial => onDataStore (diskStorageReadBlocksFromStart initial storageLoadMaxN)) storageLoadBlock

/-- The item leaves its place and is inserted again with its key. -/
def storageAttachKeyToItem (key : List UInt8) (internalId keyStorageOffset : Nat) : StorageM Bool := do
  match (← get).items.find? fun item => item.internalId = internalId with
  | none => pure false
  | some item => do
      require (item.key = none) .storageAttachKey
      modify fun store =>
        { store with
          items := (store.items.filter fun item => item.internalId ≠ internalId) ++
            [{ item with key := keyOf key, keyStorageOffset := keyStorageOffset }] }
      pure true

/-- One round of the second loop of `storage_load`. Bytes behind the block are not read. -/
def storageLoadKey (found : BlockRead) : StorageM Unit := do
  require (2 < found.buf.length) .storageLoadKeySize
  let keyLen := valueOf (found.buf.take 2)
  let key := (found.buf.drop 2).take keyLen
  require (2 + keyLen + 8 ≤ found.buf.length) .memory
  let internalId := valueOf ((found.buf.drop (2 + keyLen)).take 8)
  require (keyLen ≠ 0 ∧ key.getD 0 0 ≠ 0) .storageLoadKey
  modify fun store =>
    if store.nextInternalId ≤ internalId then { store with nextInternalId := (internalId + 1) % 2 ^ 64 }
    else store
  if !(← storageAttachKeyToItem key internalId found.offset) then
    let offRestore ← onKeyStore (mustLseek .fd 0 .cur)
    onKeyStore (mustSucceed (diskStorageReleaseBlock found.offset) .storageLoadRelease)
    let _ ← onKeyStore (mustLseek .fd offRestore .set)

def storageLoadKeys : Nat → Bool → StorageM Unit :=
  loadBlocks (fun initial => onKeyStore (diskStorageReadBlocksFromStart initial storageLoadMaxN)) storageLoadKey

/-- An item with complete blocks only gets an entry for its next block. -/
def storageLoadItem (item : StorageItem) : Except Failure StorageItem := do
  if item.dataOffsets = [] then throw (.abort .storageLoadOffsets)
  else if (item.dataOffsets.getLastD ⟨0, 0#64⟩).offset = 0 then throw (.abort .storageLoadLastOffset)
  else if ← tscIsClear item.data then
    return { item with dataOffsets := item.dataOffsets ++ [⟨0, 0#64⟩] }
  else
    return item

def storageLoad : StorageM Unit := do
  storageLoadData ((← get).dataDiskStore.fd.bytes.length + 1) true
  storageLoadKeys ((← get).keyDiskStore.fd.bytes.length + 1) true
  let store ← get
  require (∀ item ∈ store.items, item.key ≠ none) .storageLoadUnknownKey
  let items ← ofExcept (store.items.mapM storageLoadItem)
  modify fun store => { store with items := items }

/-- The two stores of the state are the files of the directory. -/
def storageInit (retentionSeconds : Int) (initialTscBufSize : Nat) (memory : Nat → Nat → UInt8) :
    StorageM Unit := do
  modify fun store =>
    { store with
      initialTscBufSize := initialTscBufSize, retentionSeconds := retentionSeconds, nextInternalId := 1
      items := [], memory := memory }
  onKeyStore diskStorageOpen
  onDataStore diskStorageOpen
  storageLoad

end Menoetius
