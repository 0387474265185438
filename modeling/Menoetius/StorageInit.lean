import Menoetius.StorageLoadKeys

/-
This file follows `storage_load` as a whole, and `storage_init` on a new and on an existing directory.
-/

namespace Menoetius
open LittleEndian

/-- The item of an internal id, as the loader leaves it. -/
def StorageItem.loaded (item : StorageItem) : StorageItem :=
  if item.data.data.numPts = 0 then { item with dataOffsets := item.dataOffsets ++ [unwritten] } else item

/-- An item that was made from the blocks on disk. -/
def Reloaded (s : Nat) (content : Nat → Option Block) (item : StorageItem) : Prop :=
  ∃ old, Collected s content old ∧ old.dataOffsets ≠ [] ∧ item = old.loaded

@[simp] theorem StorageItem.loaded_internalId (item : StorageItem) : item.loaded.internalId = item.internalId := by
  unfold loaded
  split <;> rfl

@[simp] theorem StorageItem.loaded_key (item : StorageItem) : item.loaded.key = item.key := by
  unfold loaded
  split <;> rfl

@[simp] theorem StorageItem.loaded_keyStorageOffset (item : StorageItem) :
    item.loaded.keyStorageOffset = item.keyStorageOffset := by
  unfold loaded
  split <;> rfl

theorem StorageItem.loaded_place (item : StorageItem) : item.loaded.place = item.place := by
  rw [place, loaded_internalId, loaded_key, loaded_keyStorageOffset]
  rfl

theorem tscIsClear_run {p : TscHeader} {points : List Point} (holds : BlockHolds p points) :
    tscIsClear p = .ok (decide (p.data.numPts = 0)) := by
  unfold tscIsClear
  cases points with
  | nil =>
      have bits : p.numValidBits = 0 := holds.numValidBits
      have count : p.data.numPts = 0 := holds.numPts
      rw [if_neg (by rw [bits]; simp), if_pos ⟨holds.lastTimestamp, holds.lastTimestampDelta, count⟩, count]
      rfl
  | cons point rest =>
      have some := coderOf_bits_length (point :: rest)
      have bits := holds.numValidBits
      have count : p.data.numPts = rest.length + 1 := holds.numPts
      rw [List.length_cons] at some
      rw [if_pos (by omega), count]
      rfl

theorem Collected.stream_holds {s : Nat} {content : Nat → Option Block} {item : StorageItem}
    (collected : Collected s content item) : ∃ points, BlockHolds item.data points := by
  rcases collected.stream with ⟨clear, _⟩ | ⟨_, _, points, _, _, stream⟩
  · exact ⟨[], clear⟩
  · exact ⟨points, stream⟩

/-- The last loop of `storage_load` passes its checks. -/
theorem storageLoadItem_run {s : Nat} {content : Nat → Option Block} {item : StorageItem}
    (collected : Collected s content item) (some : item.dataOffsets ≠ []) (zero : content 0 = none) :
    storageLoadItem item = .ok item.loaded := by
  obtain ⟨points, stream⟩ := collected.stream_holds
  have last : (item.dataOffsets.getLastD ⟨0, 0#64⟩).offset ≠ 0 := by
    rw [List.getLastD_eq_getLast?, List.getLast?_eq_getLast_of_ne_nil some, Option.getD_some]
    intro none
    obtain ⟨block, _, _, found, _, _⟩ := collected.entries _ (List.getLast_mem some)
    rw [none, zero] at found
    cases found
  unfold storageLoadItem StorageItem.loaded
  rw [if_neg some, if_neg last, tscIsClear_run stream]
  by_cases clear : item.data.data.numPts = 0
  · rw [if_pos clear, clear]
    rfl
  · rw [if_neg clear]
    change (if decide (item.data.data.numPts = 0) = true then _ else _) = _
    rw [if_neg (by simpa using clear)]
    rfl

theorem mapM_ok {α β : Type} {f : α → Except Failure β} {g : α → β} {items : List α}
    (each : ∀ item ∈ items, f item = .ok (g item)) : items.mapM f = .ok (items.map g) := by
  induction items with
  | nil => rfl
  | cons first rest ih =>
      obtain ⟨head, tail⟩ := List.forall_mem_cons.mp each
      rw [List.mapM_cons, head, ih tail]
      rfl

section
variable {s : Nat} {content : Nat → Option Block} {later : List Block} {store : Storage}

/-- After the second loop every item has its key. -/
theorem KeysScanned.named (scanned : KeysScanned s content later [] store) {item : StorageItem}
    (member : item ∈ store.items) :
    ∃ block, blockAt later item.keyStorageOffset = some block ∧ block.Live ∧ blockKeyId block = item.internalId ∧
      item.key = some (blockKey block) := by
  obtain ⟨offset, block, found, live, id, place⟩ := (scanned.naming item member).block
  rw [List.append_nil] at found
  rcases place with ⟨_, behind⟩ | ⟨named, here, _⟩
  · have inside := (blockAt_grown later block).behind offset block found
    omega
  · rw [← here] at found
    exact ⟨block, found, live, id, named⟩

/-- After the second loop the key store goes with the items. -/
theorem KeysPassed.keysHold (passed : KeysPassed later [] store) (all : ∀ item ∈ store.items, item.key ≠ none) :
    KeysHold store later := by
  have named := fun item (member : item ∈ store.items) => (passed.named item member (all item member)).2
  obtain ⟨disk, quiet, loadable, bounded, distinct, _, keyOwned, next, below⟩ := passed
  rw [List.append_nil] at disk loadable bounded keyOwned named
  refine
    { keyDisk := disk
      keyQuiet := quiet
      ids := distinct
      below := fun item member => below item member (all item member)
      next := next
      keys := ?_
      keysDistinct := ?_
      keyOwned := ?_
      keyBounded := bounded }
  · intro item member
    obtain ⟨block, found, live, id, key⟩ := named item member
    obtain ⟨valid, _, keyBlock⟩ := loadable.readable _ _ found live
    refine ⟨blockKey block, key, valid, block, found, ?_⟩
    rw [← id]
    exact keyBlock
  · refine List.Nodup.map_on ?_ (List.Nodup.of_map _ distinct)
    intro first firstIn second secondIn same
    obtain ⟨block, found, live, id, key⟩ := named first firstIn
    obtain ⟨other, found', live', id', key'⟩ := named second secondIn
    rw [key, key'] at same
    have place := loadable.unique _ _ _ _ found live found' live' (Or.inl (Option.some.inj same))
    rw [place, found'] at found
    rw [← Option.some.inj found, id'] at id
    exact eq_of_nodup_map distinct firstIn secondIn id.symm
  · intro offset block found live
    have inside := (blockAt_grown later block).behind offset block found
    obtain ⟨item, present, _, place⟩ := keyOwned offset block found live inside
    exact ⟨item, present, place⟩

/-- The storage after `storage_load`. -/
theorem KeysScanned.holds {dataBlocks : List Block}
    (scanned : KeysScanned s (blockAt dataBlocks) later [] store) (config : store.initialTscBufSize = s)
    (disk : DiskHolds store.dataDiskStore dataBlocks) (quiet : store.dataDiskStore.numBeforeCrash = none)
    (bounded : Bounded (blockBound s) (blockAt dataBlocks)) :
    StorageHolds (Reloaded s) { store with items := store.items.map StorageItem.loaded } later dataBlocks := by
  have all : ∀ item ∈ store.items, item.key ≠ none := by
    intro item member
    obtain ⟨block, _, _, _, key⟩ := scanned.named member
    rw [key]
    simp
  have places : (store.items.map StorageItem.loaded).map StorageItem.place = store.items.map StorageItem.place := by
    rw [List.map_map]
    exact List.map_congr_left fun item _ => item.loaded_place
  have keys : KeysHold { store with items := store.items.map StorageItem.loaded } later :=
    (scanned.passed.keysHold all).same places rfl rfl
  refine
    { keys with
      dataDisk := disk
      dataQuiet := quiet
      items := ?_
      dataOwned := ?_
      dataBounded := by rw [config]; exact bounded }
  · intro item member
    obtain ⟨old, present, rfl⟩ := List.mem_map.mp member
    obtain ⟨some, collected⟩ := scanned.each old present
    exact ⟨old, collected, some, rfl⟩
  · intro offset block found live
    obtain ⟨item, present, carried⟩ := scanned.owned offset block found live
    exact ⟨item.loaded, List.mem_map_of_mem present, by rw [carried, item.loaded_internalId]⟩

end

/-- The files of a directory that can be loaded. -/
structure Directory (s : Nat) (store : Storage) (keyBlocks dataBlocks : List Block) : Prop where
  keyDisk : DiskHolds store.keyDiskStore keyBlocks
  keyQuiet : store.keyDiskStore.numBeforeCrash = none
  dataDisk : DiskHolds store.dataDiskStore dataBlocks
  dataQuiet : store.dataDiskStore.numBeforeCrash = none
  loadable : Loadable s (blockAt dataBlocks)
  dataBounded : Bounded (blockBound s) (blockAt dataBlocks)
  keysLoadable : KeysLoadable (blockAt keyBlocks)
  keyBounded : Bounded keyBound (blockAt keyBlocks)
  known : ∀ offset block, blockAt dataBlocks offset = some block → block.Live →
    ∃ place key, blockAt keyBlocks place = some key ∧ key.Live ∧ blockKeyId key = carriedId block

/-- How `storage_load` can fail: in its first loop, or on a key that starts with a zero byte. -/
def LoadFails (keyBlocks dataBlocks : List Block) (failure : Failure) : Prop :=
  LoadDataFails (blockAt dataBlocks) failure ∨ failure = .abort .storageLoadKey ∧
    ∃ offset block, blockAt keyBlocks offset = some block ∧ block.Live ∧ (blockKey block).getD 0 0 = 0

/-- The storage after a load: keys without data are released, all other blocks stay. -/
structure LoadedFrom (store after : Storage) (keyBlocks dataBlocks names : List Block) : Prop extends
    SameConfig store after where
  holds : StorageHolds (Reloaded store.initialTscBufSize) after names dataBlocks
  fewer : FewerLive (blockAt keyBlocks) (blockAt names)

theorem storageLoad_ends {store : Storage} {keyBlocks dataBlocks : List Block}
    (directory : Directory store.initialTscBufSize store keyBlocks dataBlocks) (none : store.items = [])
    (next : store.nextInternalId < 2 ^ 63) :
    storageLoad.Ends store (fun _ after => ∃ names, LoadedFrom store after keyBlocks dataBlocks names)
      (fun failure _ => LoadFails keyBlocks dataBlocks failure) := by
  unfold storageLoad
  apply EStateM.ends_bind_ok (EStateM.get_apply store)
  apply EStateM.Ends.bind ((storageLoadData_ends rfl none directory.dataDisk directory.loadable).mono
    (fun _ _ done => done) fun _ _ failed => Or.inl failed)
  rintro _ middle ⟨items, pos, collected, rfl⟩
  apply EStateM.ends_bind_ok (EStateM.get_apply _)
  have known : ∀ item ∈ items, ∃ offset block, blockAt keyBlocks offset = some block ∧ block.Live ∧
      blockKeyId block = item.internalId := by
    intro item member
    obtain ⟨_, some, own⟩ := collected.each item member
    obtain ⟨entry, rest, split⟩ := List.exists_cons_of_ne_nil some
    obtain ⟨block, _, _, found, data, _⟩ := own.entries entry (by rw [split]; exact List.mem_cons_self)
    obtain ⟨place, key, there, live, id⟩ := directory.known _ _ found data.live
    refine ⟨place, key, there, live, id.trans (data.carries ?_)⟩
    have small := own.small
    omega
  apply EStateM.Ends.bind ((@storageLoadKeys_ends store.initialTscBufSize (blockAt dataBlocks) (store.collecting items pos) keyBlocks items
    collected rfl directory.keyDisk directory.keyQuiet directory.keysLoadable directory.keyBounded next known).mono
    (fun _ _ done => done) fun _ _ failed => Or.inr failed)
  rintro _ last ⟨data, names, scanned, fewer⟩
  apply EStateM.ends_bind_ok (EStateM.get_apply _)
  have all : ∀ item ∈ last.items, item.key ≠ Option.none := by
    intro item member
    obtain ⟨block, _, _, _, key⟩ := scanned.named member
    rw [key]
    simp
  rw [require_bind all]
  have zero : blockAt dataBlocks 0 = Option.none := blockAt_zero dataBlocks
  have loaded : last.items.mapM storageLoadItem = .ok (last.items.map StorageItem.loaded) := by
    apply mapM_ok
    intro item member
    obtain ⟨some, own⟩ := scanned.each item member
    exact storageLoadItem_run own some zero
  rw [loaded]
  rw [SameData] at data
  have size : last.initialTscBufSize = store.initialTscBufSize := by rw [data]; rfl
  have disk : last.dataDiskStore = store.dataDiskStore.seekTo pos := by rw [data]; rfl
  refine EStateM.ends_of_ok rfl ⟨names, ⟨size, by rw [data]; rfl⟩, ?_, fewer⟩
  apply scanned.holds size
  · rw [disk]
    exact directory.dataDisk.seekTo pos
  · rw [disk]
    exact directory.dataQuiet
  · exact directory.dataBounded

/-- The process reads its directory again. -/
def Storage.fresh (retentionSeconds : Int) (initialTscBufSize : Nat) (memory : Nat → Nat → UInt8)
    (keyDisk dataDisk : DiskStorage) : Storage :=
  { initialTscBufSize := initialTscBufSize, retentionSeconds := retentionSeconds, nextInternalId := 1, items := []
    keyDiskStore := keyDisk, dataDiskStore := dataDisk, memory := memory }

/-- `storage_init` opens both stores and loads them. -/
theorem storageInit_eq {store : Storage} {keyDisk dataDisk : DiskStorage}
    (keys : diskStorageOpen store.keyDiskStore = .ok () keyDisk)
    (data : diskStorageOpen store.dataDiskStore = .ok () dataDisk) (retentionSeconds : Int) (s : Nat)
    (memory : Nat → Nat → UInt8) :
    storageInit retentionSeconds s memory store =
      storageLoad (Storage.fresh retentionSeconds s memory keyDisk dataDisk) := by
  unfold storageInit
  rw [EStateM.bind_ok (EStateM.modify_apply _ _)]
  have named := @onKeyStore_ok (Storage.fresh retentionSeconds s memory store.keyDiskStore store.dataDiskStore)
    _ _ _ _ keys
  have opened : onDataStore diskStorageOpen
      (Storage.fresh retentionSeconds s memory keyDisk store.dataDiskStore) =
        .ok () (Storage.fresh retentionSeconds s memory keyDisk dataDisk) := by
    simp only [onDataStore, Storage.fresh, data]
  exact (EStateM.bind_ok named _).trans (EStateM.bind_ok opened _)

/-- `storage_init` on a directory that a process has left. -/
theorem storageInit_ends {s : Nat} {store : Storage} {keyBlocks dataBlocks : List Block}
    (directory : Directory s store keyBlocks dataBlocks) (retentionSeconds : Int) (memory : Nat → Nat → UInt8) :
    (storageInit retentionSeconds s memory).Ends store
      (fun _ after => after.initialTscBufSize = s ∧ after.retentionSeconds = retentionSeconds ∧
        ∃ names, StorageHolds (Reloaded s) after names dataBlocks ∧ FewerLive (blockAt keyBlocks) (blockAt names))
      (fun failure _ => LoadFails keyBlocks dataBlocks failure) := by
  obtain ⟨keyDisk, keys, keyHolds, keyQuiet, _⟩ := directory.keyDisk.toDiskFiles.reopen directory.keyQuiet
  obtain ⟨dataDisk, data, dataHolds, dataQuiet, _⟩ := directory.dataDisk.toDiskFiles.reopen directory.dataQuiet
  have opened : Directory s (Storage.fresh retentionSeconds s memory keyDisk dataDisk) keyBlocks dataBlocks :=
    { directory with keyDisk := keyHolds, keyQuiet := keyQuiet, dataDisk := dataHolds, dataQuiet := dataQuiet }
  have small : (1 : Nat) < 2 ^ 63 := by decide
  apply EStateM.ends_of_eq (storageInit_eq keys data retentionSeconds s memory)
  apply (storageLoad_ends opened rfl small).mono
  · rintro _ after ⟨names, loaded⟩
    exact ⟨loaded.initialTscBufSize, loaded.retentionSeconds, names, loaded.holds, loaded.fewer⟩
  · exact fun _ _ failed => failed

/-- The storage before `storage_init` on an empty directory. -/
def newStorage : Storage := Storage.fresh 0 0 (fun _ _ => 0) newStore newStore

theorem createdStorage_directory (retentionSeconds : Int) (s : Nat) (memory : Nat → Nat → UInt8) :
    Directory s (Storage.fresh retentionSeconds s memory createdStore createdStore) [] [] where
  keyDisk := createdStore_holds
  keyQuiet := rfl
  dataDisk := createdStore_holds
  dataQuiet := rfl
  loadable := by
    intro offset block found
    cases found
  dataBounded := by
    intro offset block found
    cases found
  keysLoadable := by
    constructor
    · intro offset block found
      cases found
    · intro first second block other found
      cases found
  keyBounded := by
    intro offset block found
    cases found
  known := by
    intro offset block found
    cases found

/-- `storage_init` on an empty directory makes a storage without items. -/
theorem storageInit_new (retentionSeconds : Int) (s : Nat) (memory : Nat → Nat → UInt8) :
    ∃ after names, storageInit retentionSeconds s memory newStorage = .ok () after ∧
      after.initialTscBufSize = s ∧ after.retentionSeconds = retentionSeconds ∧ after.items = [] ∧
      StorageHolds (Reloaded s) after names [] := by
  have small : (1 : Nat) < 2 ^ 63 := by decide
  have ends := @storageLoad_ends (Storage.fresh retentionSeconds s memory createdStore createdStore) _ _
    (createdStorage_directory retentionSeconds s memory) rfl small
  obtain ⟨_, after, run, names, loaded⟩ := ends.returns (by
    rintro failure final ((⟨_, large⟩ | ⟨_, _, _, _, _, found, _⟩) | ⟨_, _, _, found, _⟩)
    · exact large fun offset block found => by cases found
    · cases found
    · cases found)
  refine ⟨after, names, ?_, loaded.initialTscBufSize, loaded.retentionSeconds, ?_, loaded.holds⟩
  · rw [← run]
    exact storageInit_eq newStore_open newStore_open retentionSeconds s memory
  · rw [List.eq_nil_iff_forall_not_mem]
    intro item member
    obtain ⟨old, collected, some, _⟩ := loaded.holds.items item member
    obtain ⟨entry, rest, split⟩ := List.exists_cons_of_ne_nil some
    obtain ⟨block, _, _, found, _⟩ := collected.entries entry (by rw [split]; exact List.mem_cons_self)
    cases found

end Menoetius
