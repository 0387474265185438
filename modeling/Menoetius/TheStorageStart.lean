import Menoetius.TheStorageLoad

/-
This file shows that the trees and the list hold the items of the key store when a whole storage has started.
-/

namespace Menoetius
open LittleEndian

/-- The last loop of `storage_load` leaves the keys as they are. -/
theorem of_storageLoadItem {item after : StorageItem} (run : storageLoadItem item = .ok after) :
    after.place = item.place := by
  unfold storageLoadItem at run
  split at run
  · cases run
  · split at run
    · cases run
    · cases clear : tscIsClear item.data with
      | error failure =>
          rw [clear] at run
          cases run
      | ok empty =>
          rw [clear] at run
          cases empty with
          | false =>
              cases run
              rfl
          | true =>
              cases run
              rfl

theorem mapM_view {α β γ : Type} {f : α → Except Failure β} {before : α → γ} {behind : β → γ}
    (each : ∀ item result, f item = .ok result → behind result = before item) :
    ∀ {items : List α} {results : List β}, items.mapM f = .ok results → results.map behind = items.map before := by
  intro items
  induction items with
  | nil =>
      intro results run
      cases run
      rfl
  | cons first rest ih =>
      intro results run
      rw [List.mapM_cons] at run
      cases head : f first with
      | error failure =>
          rw [head] at run
          cases run
      | ok result =>
          rw [head] at run
          cases tail : rest.mapM f with
          | error failure =>
              rw [tail] at run
              cases run
          | ok others =>
              rw [tail] at run
              cases run
              rw [List.map_cons, List.map_cons, each first result head, ih tail]

theorem of_storageLoadItems {store after : Storage} (run : storageLoadItems store = .ok () after) :
    (∀ item ∈ store.items, item.key ≠ none) ∧
      ∃ items, items.map StorageItem.place = store.items.map StorageItem.place ∧ after = { store with items } := by
  unfold storageLoadItems at run
  rw [EStateM.bind_ok (EStateM.get_apply store)] at run
  obtain ⟨all, run⟩ := of_require_bind run
  obtain ⟨items, _, loaded, run⟩ := EStateM.of_bind_ok run
  cases made : store.items.mapM storageLoadItem with
  | error failure =>
      rw [made] at loaded
      cases loaded
  | ok others =>
      rw [made] at loaded
      cases loaded
      cases run
      exact ⟨all, items, mapM_view (fun _ _ => of_storageLoadItem) made, rfl⟩

/-- The trees and the list of a storage hold its items, and so does its key store. -/
structure TheStorage.Indexed (store : TheStorage) (items : List IndexItem) : Prop where
  holds : store.Holds items
  keys : ∃ keyBlocks, KeysHold store.storage keyBlocks

section
variable {store : TheStorage} {items placeholders : List IndexItem}

theorem TheStorage.Loading.start (storage : Storage) (none : storage.items = []) (next : storage.nextInternalId = 1)
    (debugBuild : Bool) (indices : List CString) :
    TheStorage.Loading ⟨storage, Indexes.init debugBuild indices⟩ [] [] where
  consistent := Indexes.init_consistent debugBuild indices
  names := by rw [Storage.names, none]; rfl
  known := by rw [Storage.names, none]; exact fun _ => Iff.rfl
  ids := by rw [Storage.names, none]; exact List.nodup_nil
  distinct := List.nodup_nil
  next := next.symm

/-- In the first loop all items are placeholders. -/
theorem TheStorage.Loading.unnamed (loading : store.Loading [] placeholders) :
    ∀ item ∈ store.storage.items, item.key = none := by
  intro item member
  have there : item.name ∈ store.storage.names := List.mem_map_of_mem member
  have absent := List.filter_eq_nil_iff.mp loading.names item.name there
  exact Option.not_isSome_iff_eq_none.mp absent

/-- An item of each view stands for one of the other, when all have keys. -/
theorem TheStorage.Loading.ready (loading : store.Loading items placeholders)
    (all : ∀ item ∈ store.storage.items, item.key ≠ none) :
    placeholders = [] ∧ items.map IndexItem.name = store.storage.names := by
  have every : store.storage.names.filter (fun name => name.2.isSome) = store.storage.names := by
    rw [List.filter_eq_self]
    intro name present
    obtain ⟨item, member, rfl⟩ := List.mem_map.mp present
    exact Option.isSome_iff_ne_none.mpr (all item member)
  have names : items.map IndexItem.name = store.storage.names := loading.names.symm.trans every
  refine ⟨List.eq_nil_iff_forall_not_mem.mpr ?_, names⟩
  intro p member
  have inside := (loading.known p.internalId).mpr (List.mem_map_of_mem (List.mem_append_right _ member))
  rw [← names, List.map_map] at inside
  have distinct := loading.distinct
  rw [List.map_append, List.nodup_append] at distinct
  exact distinct.2.2 _ inside _ (List.mem_map_of_mem member) rfl

theorem TheStorage.Loading.indexed (loading : store.Loading items placeholders) {keyBlocks : List Block}
    (passed : KeysPassed keyBlocks [] store.storage) (all : ∀ item ∈ store.storage.items, item.key ≠ none) :
    store.Indexed items := by
  obtain ⟨rfl, names⟩ := loading.ready all
  have keys := passed.keysHold all
  have ids : items.map IndexItem.internalId = store.storage.items.map StorageItem.internalId := by
    rw [← Storage.names_ids, ← names, List.map_map]
    rfl
  refine
    { holds :=
        { consistent := loading.consistent
          names := names
          next := loading.next
          ids := ids ▸ keys.ids
          below := ?_
          small := keys.next }
      keys := ⟨keyBlocks, keys⟩ }
  intro item member
  have there := List.mem_map_of_mem (f := IndexItem.internalId) member
  rw [ids] at there
  obtain ⟨other, present, same⟩ := List.mem_map.mp there
  rw [← same]
  exact keys.below other present

/-- The checks behind the loops leave both views as they are. -/
theorem TheStorage.Indexed.view (indexed : store.Indexed items) {storage : Storage}
    (same : SameView StorageItem.place store.storage storage) : TheStorage.Indexed { store with storage } items := by
  obtain ⟨keyBlocks, keys⟩ := indexed.keys
  exact ⟨indexed.holds.withStorage same.placeNames, keyBlocks, keys.view same⟩

end

section
variable {store after : TheStorage} {choose : Indexes → Nat}

/-- After the first loop both views hold the same placeholders. -/
theorem storageLoadBlocks_loading {debugBuild : Bool} {indices : List CString} {storage : Storage}
    (none : storage.items = []) (next : storage.nextInternalId = 1) {fuel : Nat}
    (run : TheStorage.loadBlocks (fun initial => onDataStore (diskStorageReadBlocksFromStart initial storageLoadMaxN))
      (TheStorage.storageLoadBlock choose) fuel true ⟨storage, Indexes.init debugBuild indices⟩ = .ok () after) :
    SameSetup ⟨storage, Indexes.init debugBuild indices⟩ after ∧ after.storage.keyDiskStore = storage.keyDiskStore ∧
      after.storage.nextInternalId = 1 ∧ ∃ placeholders, after.Loading [] placeholders := by
  refine @of_loadBlocks _ _ (fun current =>
    SameSetup ⟨storage, Indexes.init debugBuild indices⟩ current ∧
      current.storage.keyDiskStore = storage.keyDiskStore ∧ current.storage.nextInternalId = 1 ∧
      ∃ placeholders, current.Loading [] placeholders) ?_ ?_ fuel true _ _
    ⟨.refl _, rfl, next, [], .start storage none next debugBuild indices⟩ run
  · rintro initial current result read ⟨setup, disk, number, placeholders, loading⟩ got
    obtain ⟨dataDisk, rfl⟩ := of_onDataStore got
    exact ⟨⟨⟨setup.storage.1, setup.storage.2⟩, setup.indices, setup.debugBuild⟩, disk, number, placeholders,
      loading.same rfl rfl⟩
  · rintro found current later ⟨setup, disk, number, placeholders, loading⟩ loaded
    obtain ⟨same, frame, others, still⟩ := loading.block loaded
    refine ⟨setup.trans same, ?_, ?_, others, still⟩
    · rw [frame]
      exact disk
    · rw [frame]
      exact number

/-- The two loops do the same on the first round as behind the reserved bytes. -/
theorem TheStorage.loadBlocks_initial {read : Bool → StorageM (Option BlockRead)} {load : BlockRead → TheStorageM Unit}
    {storage : Storage} (same : read true store.storage = read false storage) (fuel : Nat) :
    loadBlocks read load (fuel + 1) true store = loadBlocks read load (fuel + 1) false { store with storage } := by
  have first : onStorage (read true) store = onStorage (read false) { store with storage } := by
    simp only [onStorage, same]
  unfold loadBlocks
  rw [EStateM.bind_apply, EStateM.bind_apply, first]

/-- After the second loop the items of both views have the same keys. -/
theorem storageLoadKeys_loading {keyBlocks : List Block} {placeholders : List IndexItem}
    (loading : store.Loading [] placeholders) (disk : DiskHolds store.storage.keyDiskStore keyBlocks)
    (quiet : store.storage.keyDiskStore.numBeforeCrash = none) (loadable : KeysLoadable (blockAt keyBlocks))
    (bounded : Bounded keyBound (blockAt keyBlocks)) (next : store.storage.nextInternalId = 1)
    (run : TheStorage.loadBlocks (fun initial => onKeyStore (diskStorageReadBlocksFromStart initial storageLoadMaxN))
      (TheStorage.storageLoadKey choose) (store.storage.keyDiskStore.fd.bytes.length + 1) true store = .ok () after) :
    SameSetup store after ∧ ∃ later items others, KeysPassed later [] after.storage ∧ after.Loading items others := by
  have initial : onKeyStore (diskStorageReadBlocksFromStart true storageLoadMaxN) store.storage =
      onKeyStore (diskStorageReadBlocksFromStart false storageLoadMaxN)
        { store.storage with keyDiskStore := store.storage.keyDiskStore.seekTo storageInitialReserved } := by
    unfold onKeyStore
    rw [readBlocksFromStart_initial]
  have length := disk.toDiskFiles.length
  have spans := spanOf_ge keyBlocks
  rw [TheStorage.loadBlocks_initial initial] at run
  have ids := loading.ids
  rw [Storage.names_ids] at ids
  have started : KeysPassed [] keyBlocks
      { store.storage with keyDiskStore := store.storage.keyDiskStore.seekTo storageInitialReserved } :=
    .start (disk.seekTo _) quiet loadable bounded ids loading.unnamed (by
      rw [next]
      decide)
  refine @of_loadBlocks_all _ _ (fun back current => SameSetup store current ∧ ∃ front items others,
      current.storage.keyDiskStore.fd.pos = storageInitialReserved + spanOf front ∧
      KeysPassed front back current.storage ∧ current.Loading items others)
    (fun final => SameSetup store final ∧ ∃ later items others,
      KeysPassed later [] final.storage ∧ final.Loading items others) ?_ ?_
    (store.storage.keyDiskStore.fd.bytes.length + 1) keyBlocks
    { store with storage := { store.storage with
      keyDiskStore := store.storage.keyDiskStore.seekTo storageInitialReserved } } _
    ⟨⟨⟨rfl, rfl⟩, rfl, rfl⟩, [], [], placeholders, rfl, started, loading.same rfl rfl⟩ (by omega) run
  · rintro back current storage ⟨setup, front, items, others, pos, passed, kept⟩ got
    obtain ⟨disk, ⟨⟨place, rfl⟩, dead⟩, rfl⟩ :=
      (onKeyStore_ends (readBlocksFromStart_ends passed.disk.toDiskFiles pos)).of_ok got
    rw [← List.append_nil back] at passed
    exact ⟨⟨⟨setup.storage.1, setup.storage.2⟩, setup.indices, setup.debugBuild⟩, front ++ back, items, others,
      passed.skip dead place, kept.same rfl rfl⟩
  · rintro back current found storage ⟨setup, front, items, others, pos, passed, kept⟩ got
    obtain ⟨disk, ⟨dead, block, rest, behind, none, live, rfl, rfl⟩, rfl⟩ :=
      (onKeyStore_ends (readBlocksFromStart_ends passed.disk.toDiskFiles pos)).of_ok got
    have place : storageInitialReserved + spanOf front + spanOf dead =
        storageInitialReserved + spanOf (front ++ dead) := by
      rw [spanOf_append, Nat.add_assoc]
    rw [behind] at passed
    refine ⟨rest, by rw [behind]; simp; omega, ?_⟩
    rw [place]
    intro later loaded
    have skipped := passed.skip none (storageInitialReserved + spanOf (front ++ dead) + block.span)
    have moved : TheStorage.Loading
        { current with storage := { current.storage with
            keyDiskStore := current.storage.keyDiskStore.seekTo
              (storageInitialReserved + spanOf (front ++ dead) + block.span) } } items others := kept.same rfl rfl
    obtain ⟨same, left, more, remaining, round, still⟩ := moved.key skipped rfl live loaded
    refine ⟨setup.trans ⟨⟨same.storage.1, same.storage.2⟩, same.indices, same.debugBuild⟩, front ++ dead ++ [left], more,
      remaining, ?_, round.passed live skipped, still⟩
    rw [round.pos rfl, spanOf_append (front ++ dead), spanOf_cons, spanOf_nil, round.span, Nat.add_zero,
      Nat.add_assoc]

/-- The two loops of `storage_load`, and the checks behind them. -/
theorem TheStorage.storageLoad_indexed {keyBlocks : List Block} {storage : Storage} {debugBuild : Bool}
    {indices : List CString} (none : storage.items = []) (next : storage.nextInternalId = 1)
    (disk : DiskHolds storage.keyDiskStore keyBlocks) (quiet : storage.keyDiskStore.numBeforeCrash = Option.none)
    (loadable : KeysLoadable (blockAt keyBlocks)) (bounded : Bounded keyBound (blockAt keyBlocks))
    (run : storageLoad choose ⟨storage, Indexes.init debugBuild indices⟩ = .ok () after) :
    SameSetup ⟨storage, Indexes.init debugBuild indices⟩ after ∧ ∃ items, after.Indexed items := by
  unfold storageLoad at run
  rw [EStateM.bind_ok (EStateM.get_apply _)] at run
  obtain ⟨_, middle, blocks, run⟩ := EStateM.of_bind_ok run
  obtain ⟨setup, same, number, placeholders, loading⟩ := storageLoadBlocks_loading none next blocks
  rw [EStateM.bind_ok (EStateM.get_apply _)] at run
  obtain ⟨_, last, keys, run⟩ := EStateM.of_bind_ok run
  rw [← same] at disk quiet
  obtain ⟨again, later, items, others, passed, kept⟩ :=
    storageLoadKeys_loading loading disk quiet loadable bounded number keys
  obtain ⟨final, checked, rfl⟩ := of_onStorage run
  obtain ⟨all, loaded, places, rfl⟩ := of_storageLoadItems checked
  exact ⟨(setup.trans again).trans ⟨⟨rfl, rfl⟩, rfl, rfl⟩, items, (kept.indexed passed all).view ⟨places, rfl⟩⟩

/-- `storage_init` on the files of a store makes the trees and the list anew. -/
theorem TheStorage.storageInit_indexed {keyBlocks : List Block} {keyDisk : DiskStorage}
    (opened : diskStorageOpen store.storage.keyDiskStore = .ok () keyDisk) (disk : DiskHolds keyDisk keyBlocks)
    (quiet : keyDisk.numBeforeCrash = none) (loadable : KeysLoadable (blockAt keyBlocks))
    (bounded : Bounded keyBound (blockAt keyBlocks)) {retentionSeconds : Int} {initialTscBufSize : Nat}
    {memory : Nat → Nat → UInt8}
    (run : storageInit retentionSeconds initialTscBufSize memory choose store = .ok () after) :
    after.storage.initialTscBufSize = initialTscBufSize ∧ after.storage.retentionSeconds = retentionSeconds ∧
      after.indexes.indices = store.indexes.indices ∧ after.indexes.debugBuild = store.indexes.debugBuild ∧
      ∃ items, after.Indexed items := by
  unfold storageInit at run
  rw [EStateM.bind_ok (EStateM.modify_apply _ _)] at run
  obtain ⟨_, _, keys, run⟩ := EStateM.of_bind_ok run
  obtain ⟨storage, named, rfl⟩ := of_onStorage keys
  have other := @onKeyStore_ok (Storage.fresh retentionSeconds initialTscBufSize memory store.storage.keyDiskStore
    store.storage.dataDiskStore) _ _ _ _ opened
  obtain rfl : Storage.fresh retentionSeconds initialTscBufSize memory keyDisk store.storage.dataDiskStore = storage := by
    have same := other.symm.trans named
    cases same
    rfl
  obtain ⟨_, _, data, run⟩ := EStateM.of_bind_ok run
  obtain ⟨storage, found, rfl⟩ := of_onStorage data
  obtain ⟨dataDisk, rfl⟩ := of_onDataStore found
  obtain ⟨⟨⟨size, retention⟩, indices, debugBuild⟩, items, indexed⟩ :=
    storageLoad_indexed rfl rfl disk quiet loadable bounded run
  exact ⟨size, retention, indices, debugBuild, items, indexed⟩

end

end Menoetius
