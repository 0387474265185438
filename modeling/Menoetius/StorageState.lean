import Menoetius.StorageWrite

/-
This file states what a whole storage keeps: its items, their keys and the blocks of both stores.
-/

namespace Menoetius
open LittleEndian

def ValidKey (key : List UInt8) : Prop := 1 ≤ key.length ∧ key.length ≤ maxLfmSize

/-- A block of the key store with this key and internal id. -/
structure KeyBlock (key : List UInt8) (internalId : Nat) (block : Block) : Prop where
  status : block.status = .valid
  image : ∃ rest, block.payload = bytesOf 2 key.length ++ (key ++ (bytesOf 8 internalId ++ rest))

/-- The largest block that a key is given. -/
def keyBound : Nat := 2048

/-- Every item has its key on disk under its internal id. -/
structure KeyHolds (content : Nat → Option Block) (item : StorageItem) (key : List UInt8) : Prop where
  named : item.key = some key
  valid : ValidKey key
  block : ∃ block, content item.keyStorageOffset = some block ∧ KeyBlock key item.internalId block

/-- The storage and the blocks of its two stores, with what is kept of every item. -/
structure StorageHolds (keeps : (Nat → Option Block) → StorageItem → Prop) (store : Storage)
    (keyBlocks dataBlocks : List Block) : Prop where
  keyDisk : DiskHolds store.keyDiskStore keyBlocks
  keyQuiet : store.keyDiskStore.numBeforeCrash = none
  dataDisk : DiskHolds store.dataDiskStore dataBlocks
  dataQuiet : store.dataDiskStore.numBeforeCrash = none
  ids : (store.items.map StorageItem.internalId).Nodup
  below : ∀ item ∈ store.items, item.internalId < store.nextInternalId
  next : store.nextInternalId < 2 ^ 63
  items : ∀ item ∈ store.items, keeps (blockAt dataBlocks) item
  dataOwned : ∀ offset block, blockAt dataBlocks offset = some block → block.Live →
    ∃ item ∈ store.items, carriedId block = item.internalId
  dataBounded : Bounded (blockBound store.initialTscBufSize) (blockAt dataBlocks)
  keys : ∀ item ∈ store.items, ∃ key, KeyHolds (blockAt keyBlocks) item key
  keysDistinct : (store.items.map StorageItem.key).Nodup
  keyOwned : ∀ offset block, blockAt keyBlocks offset = some block → block.Live →
    ∃ item ∈ store.items, item.keyStorageOffset = offset
  keyBounded : Bounded keyBound (blockAt keyBlocks)

/-- What the key store says about the items, whatever is in the data store. -/
structure KeysHold (store : Storage) (keyBlocks : List Block) : Prop where
  keyDisk : DiskHolds store.keyDiskStore keyBlocks
  keyQuiet : store.keyDiskStore.numBeforeCrash = none
  ids : (store.items.map StorageItem.internalId).Nodup
  below : ∀ item ∈ store.items, item.internalId < store.nextInternalId
  next : store.nextInternalId < 2 ^ 63
  keys : ∀ item ∈ store.items, ∃ key, KeyHolds (blockAt keyBlocks) item key
  keysDistinct : (store.items.map StorageItem.key).Nodup
  keyOwned : ∀ offset block, blockAt keyBlocks offset = some block → block.Live →
    ∃ item ∈ store.items, item.keyStorageOffset = offset
  keyBounded : Bounded keyBound (blockAt keyBlocks)

theorem StorageHolds.keysHold {keeps : (Nat → Option Block) → StorageItem → Prop} {store : Storage}
    {keyBlocks dataBlocks : List Block} (holds : StorageHolds keeps store keyBlocks dataBlocks) :
    KeysHold store keyBlocks :=
  { holds with }

/-- What the key store knows of an item. -/
def StorageItem.place (item : StorageItem) : Nat × Option (List UInt8) × Nat :=
  (item.internalId, item.key, item.keyStorageOffset)

theorem eq_of_nodup_map {α β : Type} {f : α → β} {items : List α} (distinct : (items.map f).Nodup)
    {first second : α} (firstIn : first ∈ items) (secondIn : second ∈ items) (same : f first = f second) :
    first = second :=
  List.inj_on_of_nodup_map distinct firstIn secondIn same

theorem find_of_mem {α β : Type} [DecidableEq β] {f : α → β} {items : List α} (distinct : (items.map f).Nodup)
    {item : α} (member : item ∈ items) : items.find? (fun other => f other = f item) = some item := by
  cases found : items.find? fun other => f other = f item with
  | none =>
      have never := List.find?_eq_none.mp found item member
      simp at never
  | some other =>
      have same : f other = f item := by simpa using List.find?_some found
      rw [eq_of_nodup_map distinct (List.mem_of_find?_eq_some found) member same]

theorem onItem_ok {α : Type} {store : Storage} {item : StorageItem} {action : ItemM α} {value : α}
    {after : ItemStore} (distinct : (store.items.map StorageItem.internalId).Nodup) (member : item ∈ store.items)
    (run : action ⟨item, store.dataDiskStore⟩ = .ok value after) :
    onItem item.internalId action store = .ok value (store.withItem after) := by
  simp only [onItem, find_of_mem distinct member, run]

/-- A function on one item of the storage. -/
theorem onItem_ends {α : Type} {store : Storage} {item : StorageItem} {action : ItemM α}
    {post : α → ItemStore → Prop} {stop : Failure → ItemStore → Prop}
    (distinct : (store.items.map StorageItem.internalId).Nodup) (member : item ∈ store.items)
    (ends : action.Ends ⟨item, store.dataDiskStore⟩ post stop) :
    (onItem item.internalId action).Ends store
      (fun value after => ∃ state, post value state ∧ after = store.withItem state)
      fun failure after => ∃ state, stop failure state ∧ after = store.withItem state := by
  have found := find_of_mem distinct member
  cases run : action ⟨item, store.dataDiskStore⟩ with
  | ok value after =>
      exact EStateM.ends_of_ok (by simp only [onItem, found, run]) ⟨after, ends.of_ok run, rfl⟩
  | error failure after =>
      exact EStateM.ends_of_error (by simp only [onItem, found, run]) ⟨after, ends.of_error run, rfl⟩

section
variable {keeps kept : (Nat → Option Block) → StorageItem → Prop} {store : Storage}
  {keyBlocks dataBlocks later : List Block} {item : StorageItem} {state : ItemStore}

theorem mem_withItem (member : item ∈ store.items) (same : state.item.internalId = item.internalId)
    (other : StorageItem) :
    other ∈ (store.withItem state).items ↔
      other = state.item ∨ other ∈ store.items ∧ other.internalId ≠ item.internalId := by
  unfold Storage.withItem
  dsimp only
  rw [List.mem_map, same]
  constructor
  · rintro ⟨old, present, rfl⟩
    by_cases here : old.internalId = item.internalId
    · rw [if_pos here]
      exact Or.inl rfl
    · rw [if_neg here]
      exact Or.inr ⟨present, here⟩
  · rintro (rfl | ⟨present, elsewhere⟩)
    · exact ⟨item, member, if_pos rfl⟩
    · exact ⟨other, present, if_neg elsewhere⟩

theorem withItem_map {β : Type} (f : StorageItem → β) (distinct : (store.items.map StorageItem.internalId).Nodup)
    (member : item ∈ store.items) (same : state.item.internalId = item.internalId)
    (unchanged : f state.item = f item) : (store.withItem state).items.map f = store.items.map f := by
  unfold Storage.withItem
  dsimp only
  rw [List.map_map]
  apply List.map_congr_left
  intro other present
  rw [Function.comp_apply, same]
  split
  · rename_i here
    rw [unchanged, eq_of_nodup_map distinct present member here]
  · rfl

/-- Nothing else of the items matters for their keys. -/
theorem KeysHold.same (holds : KeysHold store keyBlocks) {after : Storage}
    (places : after.items.map StorageItem.place = store.items.map StorageItem.place)
    (next : after.nextInternalId = store.nextInternalId) (disk : after.keyDiskStore = store.keyDiskStore) :
    KeysHold after keyBlocks := by
  have view : ∀ {β : Type} (f : Nat × Option (List UInt8) × Nat → β),
      after.items.map (fun item => f item.place) = store.items.map fun item => f item.place := by
    intro β f
    have same := congrArg (List.map f) places
    rwa [List.map_map, List.map_map] at same
  have ids : after.items.map StorageItem.internalId = store.items.map StorageItem.internalId := view Prod.fst
  have keys : after.items.map StorageItem.key = store.items.map StorageItem.key := view fun place => place.2.1
  have old : ∀ item ∈ after.items, ∃ other ∈ store.items, other.place = item.place := by
    intro item member
    have there := List.mem_map_of_mem (f := StorageItem.place) member
    rw [places] at there
    exact List.mem_map.mp there
  refine
    { keyDisk := by rw [disk]; exact holds.keyDisk
      keyQuiet := by rw [disk]; exact holds.keyQuiet
      ids := by rw [ids]; exact holds.ids
      below := ?_
      next := by rw [next]; exact holds.next
      keys := ?_
      keysDistinct := by rw [keys]; exact holds.keysDistinct
      keyOwned := ?_
      keyBounded := holds.keyBounded }
  · intro item member
    obtain ⟨other, present, same⟩ := old item member
    have below := holds.below other present
    rw [next]
    rwa [show other.internalId = item.internalId from congrArg Prod.fst same] at below
  · intro item member
    obtain ⟨other, present, same⟩ := old item member
    obtain ⟨key, named, valid, block⟩ := holds.keys other present
    rw [show other.keyStorageOffset = item.keyStorageOffset from congrArg (fun place => place.2.2) same,
      show other.internalId = item.internalId from congrArg Prod.fst same] at block
    exact ⟨key, (congrArg (fun place => place.2.1) same).symm.trans named, valid, block⟩
  · intro offset block found live
    obtain ⟨other, present, here⟩ := holds.keyOwned offset block found live
    have there := List.mem_map_of_mem (f := StorageItem.place) present
    rw [← places] at there
    obtain ⟨item, member, same⟩ := List.mem_map.mp there
    exact ⟨item, member, (congrArg (fun place => place.2.2) same).trans here⟩

/-- A function on one item keeps the storage. -/
theorem StorageHolds.withItem (holds : StorageHolds keeps store keyBlocks dataBlocks) (member : item ∈ store.items)
    (change : ItemChange store.initialTscBufSize dataBlocks later ⟨item, store.dataDiskStore⟩ state)
    (own : kept (blockAt later) state.item)
    (others : ∀ other ∈ store.items, other.internalId ≠ item.internalId → keeps (blockAt dataBlocks) other →
      kept (blockAt later) other) :
    StorageHolds kept (store.withItem state) keyBlocks later := by
  have same : state.item.internalId = item.internalId := change.internalId
  have members := fun other => @mem_withItem store item state member same other
  have place : state.item.place = item.place := by
    rw [StorageItem.place, same, change.key, change.keyStorageOffset]
    rfl
  have keys : KeysHold (store.withItem state) keyBlocks :=
    holds.keysHold.same (withItem_map _ holds.ids member same place) rfl rfl
  refine
    { keys with
      dataDisk := change.disk
      dataQuiet := change.quiet
      items := ?_
      dataOwned := ?_
      dataBounded := change.bounded holds.dataBounded }
  · intro other present
    rcases (members other).mp present with rfl | ⟨old, elsewhere⟩
    · exact own
    · exact others other old elsewhere (holds.items other old)
  · intro offset block found live
    by_cases mine : carriedId block = item.internalId
    · exact ⟨state.item, (members _).mpr (Or.inl rfl), mine.trans same.symm⟩
    · obtain ⟨other, old, carried⟩ :=
        holds.dataOwned offset block (change.frame.old offset block found live mine) live
      exact ⟨other, (members _).mpr (Or.inr ⟨old, by rw [← carried]; exact mine⟩), carried⟩

/-- A weaker statement about the items. -/
theorem StorageHolds.mono (holds : StorageHolds keeps store keyBlocks dataBlocks)
    (weaker : ∀ item ∈ store.items, keeps (blockAt dataBlocks) item → kept (blockAt dataBlocks) item) :
    StorageHolds kept store keyBlocks dataBlocks :=
  { holds with items := fun item member => weaker item member (holds.items item member) }

/-- No block carries the next internal id. -/
theorem StorageHolds.unused (holds : StorageHolds keeps store keyBlocks dataBlocks) {offset : Nat} {block : Block}
    (found : blockAt dataBlocks offset = some block) (live : block.Live) :
    carriedId block ≠ store.nextInternalId := by
  obtain ⟨item, member, carried⟩ := holds.dataOwned offset block found live
  have below := holds.below item member
  omega

/-- The storage with one more item, whose key has been written. -/
def Storage.withNew (store : Storage) (key : List UInt8) (data : TscHeader) (offset : Nat) (disk : DiskStorage) :
    Storage :=
  { store with
    items := store.items ++ [⟨store.nextInternalId, some key, data, offset, []⟩]
    nextInternalId := store.nextInternalId + 1
    keyDiskStore := disk }

/-- The key of a new item is on disk. -/
structure KeyWrote (store : Storage) (keyBlocks : List Block) (key : List UInt8) (data : TscHeader)
    (offset : Nat) (disk : DiskStorage) (later : List Block) : Prop where
  stream : BlockHolds data []
  dataLen : data.dataLen = store.initialTscBufSize
  held : DiskHolds disk later
  quiet : disk.numBeforeCrash = none
  next : store.nextInternalId + 1 < 2 ^ 63
  unused : ∀ old, blockAt keyBlocks offset = some old → old.status = .empty
  block : ∃ block, blockAt later = Function.update (blockAt keyBlocks) offset (some block) ∧
    KeyBlock key store.nextInternalId block ∧ getPoolSize block.pool ≤ keyBound

theorem KeyBlock.live {key : List UInt8} {internalId : Nat} {block : Block} (holds : KeyBlock key internalId block) :
    block.Live := Or.inl holds.status

theorem KeyHolds.update {content : Nat → Option Block} {key : List UInt8} {offset : Nat} {new : Block}
    (holds : KeyHolds content item key) (unused : ∀ old, content offset = some old → old.status = .empty) :
    KeyHolds (Function.update content offset (some new)) item key := by
  obtain ⟨block, found, data⟩ := holds.block
  refine ⟨holds.named, holds.valid, block, ?_, data⟩
  rw [Function.update_of_ne, found]
  rintro rfl
  have status := unused block found
  rw [data.status] at status
  cases status

/-- The key of a new item is on disk. -/
structure KeyAdded (keyBlocks later : List Block) (key : List UInt8) (internalId offset : Nat) (disk : DiskStorage) :
    Prop where
  held : DiskHolds disk later
  quiet : disk.numBeforeCrash = none
  unused : ∀ old, blockAt keyBlocks offset = some old → old.status = .empty
  block : ∃ block, blockAt later = Function.update (blockAt keyBlocks) offset (some block) ∧
    KeyBlock key internalId block ∧ getPoolSize block.pool ≤ keyBound

theorem KeyWrote.added {key : List UInt8} {data : TscHeader} {offset : Nat} {disk : DiskStorage}
    (wrote : KeyWrote store keyBlocks key data offset disk later) :
    KeyAdded keyBlocks later key store.nextInternalId offset disk :=
  ⟨wrote.held, wrote.quiet, wrote.unused, wrote.block⟩

/-- A new item has a key of its own. -/
theorem KeysHold.withNew (holds : KeysHold store keyBlocks) {key : List UInt8} (valid : ValidKey key)
    (fresh : ∀ item ∈ store.items, item.key ≠ some key) {data : TscHeader} {offset : Nat} {disk : DiskStorage}
    (added : KeyAdded keyBlocks later key store.nextInternalId offset disk) (next : store.nextInternalId + 1 < 2 ^ 63) :
    KeysHold (store.withNew key data offset disk) later := by
  obtain ⟨block, content, keyBlock, size⟩ := added.block
  have members : ∀ other, other ∈ (store.withNew key data offset disk).items ↔
      other ∈ store.items ∨ other = ⟨store.nextInternalId, some key, data, offset, []⟩ := by
    intro other
    unfold Storage.withNew
    rw [List.mem_append, List.mem_singleton]
  refine
    { keyDisk := added.held
      keyQuiet := added.quiet
      ids := ?_
      below := ?_
      next := next
      keys := ?_
      keysDistinct := ?_
      keyOwned := ?_
      keyBounded := ?_ }
  · unfold Storage.withNew
    rw [List.map_append, List.nodup_append]
    refine ⟨holds.ids, by simp, ?_⟩
    rintro first inItems second inNew rfl
    rw [List.map_singleton, List.mem_singleton] at inNew
    obtain ⟨other, present, same⟩ := List.mem_map.mp inItems
    have below := holds.below other present
    rw [same, inNew] at below
    exact absurd below (Nat.lt_irrefl _)
  · intro other present
    unfold Storage.withNew
    rcases (members other).mp present with old | rfl
    · exact Nat.lt_succ_of_lt (holds.below other old)
    · exact Nat.lt_succ_self _
  · intro other present
    rw [content]
    rcases (members other).mp present with old | rfl
    · obtain ⟨name, held⟩ := holds.keys other old
      exact ⟨name, held.update added.unused⟩
    · exact ⟨key, rfl, valid, block, Function.update_self _ _ _, keyBlock⟩
  · unfold Storage.withNew
    rw [List.map_append, List.nodup_append]
    refine ⟨holds.keysDistinct, by simp, ?_⟩
    rintro first inItems second inNew rfl
    rw [List.map_singleton, List.mem_singleton] at inNew
    obtain ⟨other, present, same⟩ := List.mem_map.mp inItems
    exact fresh other present (same.trans inNew)
  · intro place other found live
    rw [content] at found
    by_cases here : place = offset
    · exact ⟨_, (members _).mpr (Or.inr rfl), here.symm⟩
    · rw [Function.update_of_ne here] at found
      obtain ⟨old, present, same⟩ := holds.keyOwned place other found live
      exact ⟨old, (members _).mpr (Or.inl present), same⟩
  · rw [content]
    exact holds.keyBounded.update size

/-- A new item keeps the storage. -/
theorem StorageHolds.withNew (holds : StorageHolds keeps store keyBlocks dataBlocks) {key : List UInt8}
    (valid : ValidKey key) (fresh : ∀ item ∈ store.items, item.key ≠ some key) {data : TscHeader} {offset : Nat}
    {disk : DiskStorage} (wrote : KeyWrote store keyBlocks key data offset disk later)
    (own : kept (blockAt dataBlocks) ⟨store.nextInternalId, some key, data, offset, []⟩)
    (others : ∀ other ∈ store.items, keeps (blockAt dataBlocks) other → kept (blockAt dataBlocks) other) :
    StorageHolds kept (store.withNew key data offset disk) later dataBlocks := by
  have members : ∀ other, other ∈ (store.withNew key data offset disk).items ↔
      other ∈ store.items ∨ other = ⟨store.nextInternalId, some key, data, offset, []⟩ := by
    intro other
    unfold Storage.withNew
    rw [List.mem_append, List.mem_singleton]
  have keys : KeysHold (store.withNew key data offset disk) later :=
    holds.keysHold.withNew valid fresh wrote.added wrote.next
  refine
    { keys with
      dataDisk := holds.dataDisk
      dataQuiet := holds.dataQuiet
      items := ?_
      dataOwned := ?_
      dataBounded := holds.dataBounded }
  · intro other present
    rcases (members other).mp present with old | rfl
    · exact others other old (holds.items other old)
    · exact own
  · intro place data found live
    obtain ⟨other, old, carried⟩ := holds.dataOwned place data found live
    exact ⟨other, (members _).mpr (Or.inl old), carried⟩

/-- How the process can stop when it makes a new item. -/
def NewItemStops (s : Nat) (failure : Failure) : Prop :=
  failure = .abort .storageNextInternalId ∨ (failure = .abort .memory ∧ maxNumValidBits < s * 8) ∨ DiskFull failure

theorem keyOf_valid {key : List UInt8} (valid : ValidKey key) : keyOf key = some key := by
  obtain ⟨_, short⟩ := valid
  unfold maxLfmSize at short
  rw [keyOf, if_neg]
  unfold invalidKey
  omega

theorem storageGetItem_present (distinct : (store.items.map StorageItem.key).Nodup) {key : List UInt8}
    (member : item ∈ store.items) (named : item.key = some key) (insert : Bool) :
    storageGetItem key insert store = .ok item.internalId store := by
  have found := find_of_mem distinct member
  rw [named] at found
  unfold storageGetItem
  rw [EStateM.bind_ok (EStateM.get_apply store), found]
  rfl

theorem storageGetItem_absent {key : List UInt8} (fresh : ∀ item ∈ store.items, item.key ≠ some key) :
    storageGetItem key false store = .error (.code .lookupFailed) store := by
  have found : store.items.find? (fun item => item.key = some key) = none := by
    rw [List.find?_eq_none]
    intro item member
    simpa using fresh item member
  unfold storageGetItem
  rw [EStateM.bind_ok (EStateM.get_apply store), found]
  rfl

theorem onKeyStore_ends {α : Type} {action : DiskM α} {post : α → DiskStorage → Prop}
    {stop : Failure → DiskStorage → Prop} (ends : action.Ends store.keyDiskStore post stop) :
    (onKeyStore action).Ends store
      (fun value after => ∃ disk, post value disk ∧ after = { store with keyDiskStore := disk })
      fun failure after => ∃ disk, stop failure disk ∧ after = { store with keyDiskStore := disk } := by
  cases run : action store.keyDiskStore with
  | ok value after => exact EStateM.ends_of_ok (by simp only [onKeyStore, run]) ⟨after, ends.of_ok run, rfl⟩
  | error failure after =>
      exact EStateM.ends_of_error (by simp only [onKeyStore, run]) ⟨after, ends.of_error run, rfl⟩

/-- A new item starts without points. -/
theorem storageItemNew_run (store : Storage) (key : Option (List UInt8)) (internalId : Nat)
    (large : 4 < store.initialTscBufSize) (bounded : store.initialTscBufSize * 8 ≤ maxNumValidBits) :
    ∃ data, storageItemNew store key internalId = .ok ⟨internalId, key, data, 0, []⟩ ∧
      BlockHolds data [] ∧ data.dataLen = store.initialTscBufSize := by
  have size : 0 < store.initialTscBufSize ∧ store.initialTscBufSize < 0xFFFFFFFF := by
    unfold maxNumValidBits at bounded
    omega
  have opened : ∃ data, tscInit store.initialTscBufSize
      ((List.range store.initialTscBufSize).map (store.memory internalId)) = .ok data := by
    unfold tscInit
    rw [if_neg (Nat.not_lt.mpr bounded), if_pos size]
    exact ⟨_, rfl⟩
  obtain ⟨data, opened⟩ := opened
  obtain ⟨stream, dataLen⟩ := tscInit_holds _ _ data large (by simp) opened
  exact ⟨data, by rw [storageItemNew, opened], stream, dataLen⟩

theorem storageItemNew_large (store : Storage) (key : Option (List UInt8)) (internalId : Nat)
    (large : maxNumValidBits < store.initialTscBufSize * 8) :
    storageItemNew store key internalId = .error (.abort .memory) := by
  rw [storageItemNew, tscInit, if_pos large]

/-- The block that a key is written to. -/
theorem writeKey_ends {disk : DiskStorage} (holds : DiskHolds disk keyBlocks) (quiet : disk.numBeforeCrash = none)
    {key : List UInt8} (valid : ValidKey key) (internalId : Nat) :
    (diskStorageReserveAndWriteBlock .valid (bytesOf 2 key.length ++ (key ++ bytesOf 8 internalId))).Ends disk
      (fun offset after => ∃ later, KeyAdded keyBlocks later key internalId offset after)
      fun failure _ => DiskFull failure := by
  obtain ⟨_, short⟩ := valid
  unfold maxLfmSize at short
  have length : (bytesOf 2 key.length ++ (key ++ bytesOf 8 internalId)).length = 2 + (key.length + 8) := by
    rw [List.length_append, List.length_append, bytesOf_length, bytesOf_length]
  apply (holds.reserveAndWrite quiet .valid (Or.inl rfl) _ (by omega) (by omega)).mono
  · rintro offset after ⟨later, block, held, calm, added, _⟩
    obtain ⟨rest, payload⟩ := added.payload
    refine ⟨later, held, calm, added.unused, block, added.added, ⟨added.status, rest, ?_⟩, ?_⟩
    · rw [payload, List.append_assoc, List.append_assoc]
    · rw [added.pool]
      exact getPoolSize_poolOf_le _ 11 (by omega) (by decide)
  · exact fun _ _ full => full

/-- A function on the item that was inserted last. -/
theorem onItem_last {α : Type} {items : List StorageItem} {action : ItemM α} {value : α} {after : ItemStore}
    (others : ∀ other ∈ items, other.internalId ≠ item.internalId) (last : store.items = items ++ [item])
    (run : action ⟨item, store.dataDiskStore⟩ = .ok value after) (same : after.item.internalId = item.internalId) :
    onItem item.internalId action store =
      .ok value { store with items := items ++ [after.item], dataDiskStore := after.dataDiskStore } := by
  have found : store.items.find? (fun other => other.internalId = item.internalId) = some item := by
    rw [last, List.find?_append, List.find?_eq_none.mpr (by simpa using others)]
    simp
  have rest : items.map (fun other => if other.internalId = after.item.internalId then after.item else other) =
      items := by
    conv_rhs => rw [← List.map_id items]
    apply List.map_congr_left
    intro other member
    rw [same, if_neg (others other member)]
    rfl
  have ran : onItem item.internalId action store = .ok value (store.withItem after) := by
    simp only [onItem, found, run]
  rw [ran, Storage.withItem, last, List.map_append, rest, List.map_singleton, if_pos same.symm]

/-- The key and the internal id of a new item are written to the key store. -/
theorem storageWriteKeyAndInternalId_ends (holds : KeysHold store keyBlocks) {key : List UInt8} (valid : ValidKey key)
    {data : TscHeader} {middle : Storage}
    (items : middle.items = store.items ++ [⟨store.nextInternalId, some key, data, 0, []⟩])
    (disk : middle.keyDiskStore = store.keyDiskStore) :
    (storageWriteKeyAndInternalId key store.nextInternalId).Ends middle
      (fun _ after => ∃ offset disk later, KeyAdded keyBlocks later key store.nextInternalId offset disk ∧
        after = { middle with
          items := store.items ++ [⟨store.nextInternalId, some key, data, offset, []⟩], keyDiskStore := disk })
      fun failure _ => DiskFull failure := by
  have written := writeKey_ends holds.keyDisk holds.keyQuiet valid store.nextInternalId
  rw [← disk] at written
  obtain ⟨_, short⟩ := valid
  unfold maxLfmSize at short
  unfold storageWriteKeyAndInternalId
  rw [if_neg (by unfold maxBuf; omega)]
  apply EStateM.Ends.bind ((onKeyStore_ends written).mono (fun _ _ done => done) ?_)
  · rintro offset after ⟨next, ⟨later, added⟩, rfl⟩
    have others : ∀ other ∈ store.items, other.internalId ≠ store.nextInternalId :=
      fun other member => Nat.ne_of_lt (holds.below other member)
    have run := @onItem_last { middle with keyDiskStore := next } ⟨store.nextInternalId, some key, data, 0, []⟩ _
      store.items
      (modify fun state => { state with item := { state.item with keyStorageOffset := offset } })
      ⟨⟩ _ others items rfl rfl
    exact EStateM.ends_of_ok run ⟨offset, next, later, added, rfl⟩
  · rintro failure after ⟨_, full, rfl⟩
    exact full

/-- The first write to a key makes its item. -/
theorem storageGetItem_new (holds : StorageHolds keeps store keyBlocks dataBlocks) {key : List UInt8}
    (valid : ValidKey key) (large : 4 < store.initialTscBufSize)
    (fresh : ∀ item ∈ store.items, item.key ≠ some key) :
    (storageGetItem key true).Ends store
      (fun internalId after => internalId = store.nextInternalId ∧ ∃ data offset disk later,
        KeyWrote store keyBlocks key data offset disk later ∧ after = store.withNew key data offset disk)
      fun failure _ => NewItemStops store.initialTscBufSize failure := by
  have found : store.items.find? (fun item => item.key = some key) = none := by
    rw [List.find?_eq_none]
    intro item member
    simpa using fresh item member
  have named := keyOf_valid valid
  have some : key.length ≠ 0 := Nat.ne_of_gt valid.1
  have below := holds.next
  unfold storageGetItem
  apply EStateM.ends_bind_ok (EStateM.get_apply store)
  rw [found]
  dsimp only
  rw [if_pos rfl, require_bind some, named]
  by_cases bounded : store.initialTscBufSize * 8 ≤ maxNumValidBits
  · obtain ⟨data, made, stream, dataLen⟩ :=
      storageItemNew_run store (Option.some key) store.nextInternalId large bounded
    have inserted : storageInsertItem (Option.some key) store.nextInternalId store = .ok ()
        { store with items := store.items ++ [⟨store.nextInternalId, Option.some key, data, 0, []⟩] } := by
      unfold storageInsertItem
      rw [EStateM.bind_ok (EStateM.get_apply store), made]
      rfl
    apply EStateM.ends_bind_ok inserted
    by_cases last : store.nextInternalId + 1 ≠ 2 ^ 63
    · rw [require_bind last]
      apply EStateM.ends_bind_ok (EStateM.modify_apply _ _)
      dsimp only
      generalize counted : ({ store with
        nextInternalId := (store.nextInternalId + 1) % 2 ^ 64
        items := store.items ++ [⟨store.nextInternalId, Option.some key, data, 0, []⟩] } : Storage) = middle
      have written := @storageWriteKeyAndInternalId_ends store keyBlocks holds.keysHold key valid data middle
        (by rw [← counted]) (by rw [← counted])
      apply EStateM.Ends.bind ((resultCode_ends_abort written fun _ _ full => full.aborts).mono
        (fun _ _ done => done) fun _ _ full => Or.inr (Or.inr full))
      rintro _ after ⟨offset, disk, later, added, rfl⟩
      refine EStateM.ends_of_ok rfl ⟨rfl, data, offset, disk, later,
        ⟨stream, dataLen, added.held, added.quiet, by omega, added.unused, added.block⟩, ?_⟩
      rw [← counted, Storage.withNew, Nat.mod_eq_of_lt (by omega)]
    · refine EStateM.ends_of_error (EStateM.bind_error (by rw [require_apply, if_neg last]) _) (Or.inl rfl)
  · have failed : storageInsertItem (Option.some key) store.nextInternalId store =
        .error (.abort .memory) store := by
      unfold storageInsertItem
      rw [EStateM.bind_ok (EStateM.get_apply store), storageItemNew_large _ _ _ (Nat.lt_of_not_le bounded)]
      rfl
    exact EStateM.ends_of_error (EStateM.bind_error failed _) (Or.inr (Or.inl ⟨rfl, Nat.lt_of_not_le bounded⟩))

end

end Menoetius
