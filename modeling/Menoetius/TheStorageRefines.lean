import Menoetius.TheStorageContents

/-
This file shows that a whole storage and its contents have the same runs, with all restarts.
-/

namespace Menoetius
open EStateM LittleEndian

namespace Indexes

variable {indexes : Indexes} {items placeholders : List IndexItem}

/-- A placeholder can always be made. -/
theorem storagePlaceholder_run (consistent : indexes.Consistent items placeholders) {internalId address : Nat}
    (fresh : indexes.Fresh address) : ∃ after, indexes.storagePlaceholder internalId address = .ok after := by
  rw [storagePlaceholder]
  cases indexes.findId internalId with
  | some item => exact ⟨indexes, rfl⟩
  | none =>
      obtain ⟨item, after, inserted, _⟩ := @storageInsertItem_unkeyed _ _ _ consistent internalId address fresh
      exact ⟨after, by dsimp only; rw [inserted]; rfl⟩

/-- A placeholder can always get its key. -/
theorem storageAttachKeyToItem_run (consistent : indexes.Consistent items placeholders)
    (release : indexes.debugBuild = false) {key : List UInt8} (valid : ValidKey key) {internalId : Nat}
    (unkeyed : ∀ p, indexes.findId internalId = some p → p.key = none) (address : Nat) :
    ∃ after, indexes.storageAttachKeyToItem key internalId address = .ok after := by
  rw [storageAttachKeyToItem]
  cases found : indexes.findId internalId with
  | none => exact ⟨indexes, rfl⟩
  | some p =>
      have perm := consistent.perm internalIdIndex consistent.zero_lt
      rw [if_pos rfl] at perm
      obtain ⟨tree, deleted, _⟩ := sglibDelete_perm (consistent.indexed _ consistent.zero_lt)
        (perm.mem_iff.mpr (consistent.findId found).1)
      obtain ⟨values, read⟩ := mapM_release (key ++ [0]) key.length indexes.indices
      rw [← release] at read
      have append := listAppend_run consistent.list ⟨address, internalId, some key, values⟩
      dsimp only
      rw [if_neg (not_not.mpr (unkeyed p found)), deleted, keyOf_valid valid, Except.ok_bind, storageInsertItem,
        storageItemNew, read]
      change ∃ after, ((listAppend indexes.list ⟨address, internalId, some key, values⟩ >>= _) >>= _) = .ok after
      rw [append]
      exact ⟨_, rfl⟩

end Indexes

section
variable {store : TheStorage} {items placeholders : List IndexItem} {choose : Indexes → Nat}

/-- While the stores are read, there are as many items in the tree of internal ids as in the contents. -/
theorem TheStorage.Loading.length (loading : store.Loading items placeholders) :
    (items ++ placeholders).length = store.storage.items.length := by
  have same := ((List.perm_ext_iff_of_nodup loading.ids loading.distinct).mpr loading.known).length_eq
  rwa [List.length_map, List.length_map, Storage.names, List.length_map, eq_comm] at same

theorem TheStorage.Loading.newAddress_run (loading : store.Loading items placeholders) (mallocs : Mallocs choose)
    (few : store.storage.items.length < 2 ^ 64 - 1) :
    TheStorage.newAddress choose store = .ok (choose store.indexes) store ∧ store.indexes.Fresh (choose store.indexes) := by
  have room := loading.consistent.exists_fresh (loading.length.symm ▸ few)
  exact ⟨Menoetius.newAddress_run mallocs room, mallocs _ room⟩

/-- One round of the first loop makes at most one item. -/
theorem storageLoadBlock_length {storage after : Storage} (ids : (storage.items.map StorageItem.internalId).Nodup)
    {found : BlockRead} (run : storageLoadBlock found storage = .ok () after) :
    after.items.length ≤ storage.items.length + 1 := by
  obtain ⟨middle, placed, same⟩ := of_storageLoadBlock ids run
  have length := congrArg List.length same.items
  rw [List.length_map, List.length_map] at length
  rw [length]
  rcases of_storagePlaceholder placed with ⟨_, rfl⟩ | ⟨_, data, rfl⟩
  · exact Nat.le_succ _
  · simp

theorem storageLoadBlock_mirrors (loading : store.Loading items placeholders) (mallocs : Mallocs choose)
    (few : store.storage.items.length < 2 ^ 64 - 1) (found : BlockRead) :
    Mirrors TheStorage.storage (TheStorage.storageLoadBlock choose found) (storageLoadBlock found) store
      fun _ _ after => after.storage.items.length ≤ store.storage.items.length + 1 ∧ ∃ others,
        after.Loading items others := by
  obtain ⟨given, fresh⟩ := loading.newAddress_run mallocs few
  obtain ⟨indexes, placed⟩ := @Indexes.storagePlaceholder_run _ _ _ loading.consistent (valueOf (found.buf.take 8)) _ fresh
  cases loaded : storageLoadBlock found store.storage with
  | error failure storage =>
      have failed : TheStorage.onStorage (storageLoadBlock found) store = .error failure { store with storage } := by
        simp only [TheStorage.onStorage, loaded]
      exact .stops (bind_error failed _) loaded
  | ok value storage =>
      have done : TheStorage.onStorage (storageLoadBlock found) store = .ok () { store with storage } := by
        simp only [TheStorage.onStorage, loaded]
      have unused : ∃ address, store.indexes.Fresh address := ⟨_, fresh⟩
      have next := @newAddress_run { store with storage } choose mallocs unused
      have grown : TheStorage.onIndexes (fun indexes => do
          let after ← indexes.storagePlaceholder (valueOf (found.buf.take 8)) (choose store.indexes)
          pure ((), after)) { store with storage } = .ok () ⟨storage, indexes⟩ := by
        simp only [TheStorage.onIndexes, placed, Except.ok_bind]
        rfl
      have run : TheStorage.storageLoadBlock choose found store = .ok () ⟨storage, indexes⟩ :=
        (bind_ok done _).trans ((bind_ok next _).trans grown)
      have ids := loading.ids
      rw [Storage.names_ids] at ids
      exact .returns run loaded ⟨storageLoadBlock_length ids loaded, (loading.block run).2.2⟩

/-- The key of a block that is read has no NUL byte in front. -/
theorem storageLoadKey_first {storage after : Storage} {found : BlockRead}
    (run : storageLoadKey found storage = .ok () after) :
    ((found.buf.drop 2).take (valueOf (found.buf.take 2))).getD 0 0 ≠ 0 := by
  unfold storageLoadKey at run
  obtain ⟨_, run⟩ := of_require_bind run
  obtain ⟨_, run⟩ := of_require_bind run
  obtain ⟨⟨_, first⟩, _⟩ := of_require_bind run
  exact first

/-- The key of a block goes to its item in both views. -/
theorem storageLoadKey_mirrors (loading : store.Loading items placeholders) (mallocs : Mallocs choose)
    (few : store.storage.items.length < 2 ^ 64 - 1) (release : store.indexes.debugBuild = false)
    {front rest : List Block} {block : Block} (passed : KeysPassed front (block :: rest) store.storage)
    (live : block.Live) : Mirrors TheStorage.storage
      (TheStorage.storageLoadKey choose (block.readAt (storageInitialReserved + spanOf front)))
      (storageLoadKey (block.readAt (storageInitialReserved + spanOf front))) store fun _ _ _ => True := by
  obtain ⟨given, fresh⟩ := loading.newAddress_run mallocs few
  cases loaded : storageLoadKey (block.readAt (storageInitialReserved + spanOf front)) store.storage with
  | error failure storage =>
      have failed : TheStorage.onStorage (storageLoadKey (block.readAt (storageInitialReserved + spanOf front))) store =
          .error failure { store with storage } := by simp only [TheStorage.onStorage, loaded]
      exact .stops (bind_error failed _) loaded
  | ok value storage =>
      obtain ⟨valid, small, _⟩ := passed.loadable.readable _ _ (blockAt_here front rest block) live
      have first : (blockKey block).getD 0 0 ≠ 0 := storageLoadKey_first loaded
      have unkeyed : ∀ p, store.indexes.findId (blockKeyId block) = some p → p.key = none := by
        intro p found
        obtain ⟨there, numbered⟩ := loading.consistent.findId found
        rcases List.mem_append.mp there with item | placeholder
        · have named : p.name ∈ store.storage.names.filter fun name => name.2.isSome := by
            rw [loading.names]
            exact List.mem_map_of_mem item
          obtain ⟨present, some⟩ := List.mem_filter.mp named
          obtain ⟨other, member, same⟩ := List.mem_map.mp present
          have none := passed.unnamed live member ((congrArg Prod.fst same).trans numbered)
          rw [← same, none] at some
          cases some
        · exact loading.consistent.unkeyed p placeholder
      have attached : ∃ after, store.indexes.storageLoadKey (blockKey block) (blockKeyId block) (choose store.indexes) =
          .ok after := by
        have nonempty : (blockKey block).length ≠ 0 := Nat.one_le_iff_ne_zero.mp valid.1
        rw [Indexes.storageLoadKey, if_neg (not_or.mpr ⟨nonempty, first⟩)]
        have started := loading.consistent.with_next (if store.indexes.nextInternalId ≤ blockKeyId block then
          (blockKeyId block + 1) % 2 ^ 64 else store.indexes.nextInternalId)
        exact Indexes.storageAttachKeyToItem_run started release valid unkeyed _
      obtain ⟨indexes, attached⟩ := attached
      have done : TheStorage.onStorage (storageLoadKey (block.readAt (storageInitialReserved + spanOf front))) store =
          .ok () { store with storage } := by simp only [TheStorage.onStorage, loaded]
      have unused : ∃ address, store.indexes.Fresh address := ⟨_, fresh⟩
      have next := @newAddress_run { store with storage } choose mallocs unused
      have grown : TheStorage.onIndexes (fun indexes => do
          let after ← indexes.storageLoadKey (blockKey block) (blockKeyId block) (choose store.indexes)
          pure ((), after)) { store with storage } = .ok () ⟨storage, indexes⟩ := by
        simp only [TheStorage.onIndexes, attached, Except.ok_bind]
        rfl
      have run : TheStorage.storageLoadKey choose (block.readAt (storageInitialReserved + spanOf front)) store =
          .ok () ⟨storage, indexes⟩ := (bind_ok done _).trans ((bind_ok next _).trans grown)
      exact .returns run loaded trivial

/-- The loops of the loader take the same blocks, while what holds in front of a round makes the round return. -/
theorem loadBlocks_mirrors {read : Bool → StorageM (Option BlockRead)} {load : BlockRead → TheStorageM Unit}
    {base : BlockRead → StorageM Unit} {invariant : Nat → Bool → TheStorage → Prop} {post : TheStorage → Prop}
    (stops : ∀ initial store, invariant 0 initial store → post store)
    (ends : ∀ fuel initial store storage, invariant (fuel + 1) initial store →
      read initial store.storage = .ok none storage → post { store with storage })
    (round : ∀ fuel initial store found storage, invariant (fuel + 1) initial store →
      read initial store.storage = .ok (some found) storage →
      Mirrors TheStorage.storage (load found) (base found) { store with storage } fun _ _ after =>
        invariant fuel false after) (fuel : Nat) :
    ∀ (initial : Bool) {store : TheStorage}, invariant fuel initial store →
      Mirrors TheStorage.storage (TheStorage.loadBlocks read load fuel initial) (loadBlocks read base fuel initial) store
        fun _ _ after => post after := by
  induction fuel with
  | zero => exact fun initial _ holds => .returns rfl rfl (stops initial _ holds)
  | succ fuel ih =>
      intro initial store holds
      unfold TheStorage.loadBlocks loadBlocks
      refine (mirrors_onStorage (read initial)).bind ?_
      rintro result _ after ⟨rfl, got, frame⟩
      have same : { store with storage := after.storage } = after := frame.symm
      cases result with
      | none =>
          have last := ends fuel initial store _ holds got
          rw [same] at last
          exact mirrors_pure _ _ last
      | some found =>
          have next := round fuel initial store found _ holds got
          rw [same] at next
          exact next.bind fun _ _ _ later => ih false later

/-- The loop over the data blocks. -/
theorem storageLoadBlocks_mirrors (loading : store.Loading items placeholders) (mallocs : Mallocs choose) (fuel : Nat)
    (few : store.storage.items.length + fuel < 2 ^ 64 - 1) :
    Mirrors TheStorage.storage
      (TheStorage.loadBlocks (fun initial => onDataStore (diskStorageReadBlocksFromStart initial storageLoadMaxN))
        (TheStorage.storageLoadBlock choose) fuel true) (storageLoadData fuel true) store
      fun _ _ after => after.storage.items.length < 2 ^ 64 - 1 := by
  refine @loadBlocks_mirrors _ _ _ (fun fuel _ store => store.storage.items.length + fuel < 2 ^ 64 - 1 ∧
    ∃ items placeholders, store.Loading items placeholders) (fun store => store.storage.items.length < 2 ^ 64 - 1) ?_ ?_ ?_
    fuel true store ⟨few, items, placeholders, loading⟩
  · rintro initial store ⟨few, _⟩
    exact few
  · rintro fuel initial store storage ⟨few, _⟩ got
    obtain ⟨dataDisk, rfl⟩ := of_onDataStore got
    exact (Nat.le_add_right _ _).trans_lt few
  · rintro fuel initial store found storage ⟨few, items, placeholders, loading⟩ got
    obtain ⟨dataDisk, rfl⟩ := of_onDataStore got
    have moved : TheStorage.Loading { store with storage := { store.storage with dataDiskStore := dataDisk } } items
        placeholders := loading.same rfl rfl
    refine (storageLoadBlock_mirrors moved mallocs ((Nat.le_add_right _ _).trans_lt few) found).mono ?_
    rintro _ _ after ⟨length, others, still⟩
    refine ⟨?_, items, others, still⟩
    change after.storage.items.length ≤ store.storage.items.length + 1 at length
    omega

/-- A key makes no item. -/
theorem KeyRound.length {front rest : List Block} {block left : Block} {storage after : Storage}
    (round : KeyRound front rest block storage left after) : after.items.length ≤ storage.items.length := by
  cases round with
  | @attach item member here =>
      have fewer : (storage.items.filter fun other => other.internalId ≠ item.internalId).length < storage.items.length :=
        List.length_filter_lt_length_iff_exists.mpr ⟨item, member, by simp⟩
      rw [Storage.attached, List.length_append, List.length_singleton]
      exact fewer
  | release => exact le_rfl

/-- The trees, the list and the key blocks behind a position of the scan. -/
structure TheStorage.Keying (store : TheStorage) (front back : List Block) : Prop where
  pos : store.storage.keyDiskStore.fd.pos = storageInitialReserved + spanOf front
  passed : KeysPassed front back store.storage
  loading : ∃ items placeholders, store.Loading items placeholders
  few : store.storage.items.length < 2 ^ 64 - 1
  release : store.indexes.debugBuild = false

/-- A key block that is read goes to its item, or is released. -/
theorem TheStorage.Keying.round {front back : List Block} (keying : store.Keying front back) (mallocs : Mallocs choose)
    {found : BlockRead} {storage : Storage}
    (got : onKeyStore (diskStorageReadBlocksFromStart false storageLoadMaxN) store.storage = .ok (some found) storage) :
    Mirrors TheStorage.storage (TheStorage.storageLoadKey choose found) (Menoetius.storageLoadKey found) { store with storage }
      fun _ _ after => ∃ front back, after.Keying front back := by
  obtain ⟨pos, passed, ⟨items, placeholders, loading⟩, few, release⟩ := keying
  obtain ⟨disk, ⟨dead, block, rest, behind, none, live, rfl, rfl⟩, rfl⟩ :=
    (onKeyStore_ends (readBlocksFromStart_ends passed.disk.toDiskFiles pos)).of_ok got
  have place : storageInitialReserved + spanOf front + spanOf dead = storageInitialReserved + spanOf (front ++ dead) := by
    rw [spanOf_append, Nat.add_assoc]
  rw [behind] at passed
  rw [place]
  have skipped := passed.skip none (storageInitialReserved + spanOf (front ++ dead) + block.span)
  have moved : TheStorage.Loading
      { store with storage := { store.storage with
          keyDiskStore := store.storage.keyDiskStore.seekTo
            (storageInitialReserved + spanOf (front ++ dead) + block.span) } } items placeholders := loading.same rfl rfl
  refine (storageLoadKey_mirrors moved mallocs few release skipped live).of_run ?_
  intro _ _ after run _
  obtain ⟨setup, left, more, others, round, still⟩ := moved.key skipped rfl live run
  refine ⟨front ++ dead ++ [left], rest, ?_, round.passed live skipped, ⟨more, others, still⟩, ?_, ?_⟩
  · rw [round.pos rfl, spanOf_append (front ++ dead), spanOf_cons, spanOf_nil, round.span, Nat.add_zero, Nat.add_assoc]
  · exact round.length.trans_lt few
  · rw [setup.debugBuild]
    exact release

/-- The loop over the key blocks. -/
theorem storageLoadKeys_mirrors {keyBlocks : List Block} (loading : store.Loading [] placeholders)
    (disk : DiskHolds store.storage.keyDiskStore keyBlocks) (quiet : store.storage.keyDiskStore.numBeforeCrash = none)
    (loadable : KeysLoadable (blockAt keyBlocks)) (bounded : Bounded keyBound (blockAt keyBlocks))
    (next : store.storage.nextInternalId = 1) (few : store.storage.items.length < 2 ^ 64 - 1)
    (release : store.indexes.debugBuild = false) (mallocs : Mallocs choose) (fuel : Nat) :
    Mirrors TheStorage.storage
      (TheStorage.loadBlocks (fun initial => onKeyStore (diskStorageReadBlocksFromStart initial storageLoadMaxN))
        (TheStorage.storageLoadKey choose) (fuel + 1) true) (storageLoadKeys (fuel + 1) true) store
      fun _ _ _ => True := by
  have initial : onKeyStore (diskStorageReadBlocksFromStart true storageLoadMaxN) store.storage =
      onKeyStore (diskStorageReadBlocksFromStart false storageLoadMaxN)
        { store.storage with keyDiskStore := store.storage.keyDiskStore.seekTo storageInitialReserved } := by
    unfold onKeyStore
    rw [readBlocksFromStart_initial]
  have ids := loading.ids
  rw [Storage.names_ids] at ids
  have started : KeysPassed [] keyBlocks
      { store.storage with keyDiskStore := store.storage.keyDiskStore.seekTo storageInitialReserved } :=
    .start (disk.seekTo _) quiet loadable bounded ids loading.unnamed (by
      rw [next]
      decide)
  refine mirrors_of_eq (TheStorage.loadBlocks_initial initial fuel) (loadBlocks_initial initial fuel) ?_
  refine @loadBlocks_mirrors _ _ _ (fun _ initial store => initial = false ∧ ∃ front back, store.Keying front back)
    (fun _ => True) (fun _ _ _ => trivial) (fun _ _ _ _ _ _ => trivial) ?_ (fuel + 1) false _
    ⟨rfl, [], keyBlocks, rfl, started, ⟨[], placeholders, loading.same rfl rfl⟩, few, release⟩
  rintro fuel _ store found storage ⟨rfl, front, back, keying⟩ got
  exact (keying.round mallocs got).mono fun _ _ _ later => ⟨rfl, later⟩

/-- The trees and the list never stop `storage_load`. -/
theorem storageLoad_mirrors {keyBlocks : List Block} {storage : Storage} {indices : List CString}
    (none : storage.items = []) (next : storage.nextInternalId = 1) (disk : DiskHolds storage.keyDiskStore keyBlocks)
    (quiet : storage.keyDiskStore.numBeforeCrash = Option.none) (loadable : KeysLoadable (blockAt keyBlocks))
    (bounded : Bounded keyBound (blockAt keyBlocks)) (short : storage.dataDiskStore.fd.bytes.length < offsetLimit)
    (mallocs : Mallocs choose) :
    Mirrors TheStorage.storage (TheStorage.storageLoad choose) storageLoad ⟨storage, Indexes.init false indices⟩
      fun _ _ _ => True := by
  refine mirrors_bind_left (get_apply _) rfl (mirrors_bind_right (get_apply storage) ?_)
  have loading := TheStorage.Loading.start storage none next false indices
  have many : offsetLimit + 1 < 2 ^ 64 - 1 := by decide
  refine (storageLoadBlocks_mirrors loading mallocs (storage.dataDiskStore.fd.bytes.length + 1) ?_).bind_of ?_
  · rw [none, List.length_nil]
    omega
  · rintro _ _ middle blocks _ few
    obtain ⟨setup, same, number, placeholders, loading⟩ := storageLoadBlocks_loading none next blocks
    refine mirrors_bind_left (get_apply _) rfl (mirrors_bind_right (get_apply middle.storage) ?_)
    rw [← same] at disk quiet
    refine (storageLoadKeys_mirrors loading disk quiet loadable bounded number few setup.debugBuild mallocs _).bind ?_
    intro _ _ after _
    exact (mirrors_onStorage storageLoadItems).mono fun _ _ _ _ => trivial

/-- `storage_init` returns when it does on the files alone. -/
theorem storageInit_mirrors {keyBlocks : List Block} {keyDisk dataDisk : DiskStorage}
    (openedKeys : diskStorageOpen store.storage.keyDiskStore = .ok () keyDisk)
    (openedData : diskStorageOpen store.storage.dataDiskStore = .ok () dataDisk) (disk : DiskHolds keyDisk keyBlocks)
    (quiet : keyDisk.numBeforeCrash = none) (loadable : KeysLoadable (blockAt keyBlocks))
    (bounded : Bounded keyBound (blockAt keyBlocks)) (short : dataDisk.fd.bytes.length < offsetLimit)
    (release : store.indexes.debugBuild = false) (mallocs : Mallocs choose) (retentionSeconds : Int) (s : Nat)
    (memory : Nat → Nat → UInt8) :
    Mirrors TheStorage.storage (TheStorage.storageInit retentionSeconds s memory choose)
      (storageInit retentionSeconds s memory) store fun _ _ _ => True := by
  have load := @storageLoad_mirrors choose keyBlocks (Storage.fresh retentionSeconds s memory keyDisk dataDisk)
    store.indexes.indices rfl rfl disk quiet loadable bounded short mallocs
  refine mirrors_of_eq ?_ (storageInit_eq openedKeys openedData retentionSeconds s memory) load
  have named := @onKeyStore_ok (Storage.fresh retentionSeconds s memory store.storage.keyDiskStore
    store.storage.dataDiskStore) _ _ _ _ openedKeys
  have opened : onDataStore diskStorageOpen
      (Storage.fresh retentionSeconds s memory keyDisk store.storage.dataDiskStore) =
        .ok () (Storage.fresh retentionSeconds s memory keyDisk dataDisk) := by
    simp only [onDataStore, Storage.fresh, openedData]
  have keys : ∀ indexes, TheStorage.onStorage (onKeyStore diskStorageOpen) ⟨Storage.fresh retentionSeconds s memory
      store.storage.keyDiskStore store.storage.dataDiskStore, indexes⟩ =
        .ok () ⟨Storage.fresh retentionSeconds s memory keyDisk store.storage.dataDiskStore, indexes⟩ := by
    intro indexes
    simp only [TheStorage.onStorage, named]
    rfl
  have data : ∀ indexes, TheStorage.onStorage (onDataStore diskStorageOpen) ⟨Storage.fresh retentionSeconds s memory
      keyDisk store.storage.dataDiskStore, indexes⟩ =
        .ok () ⟨Storage.fresh retentionSeconds s memory keyDisk dataDisk, indexes⟩ := by
    intro indexes
    simp only [TheStorage.onStorage, opened]
  unfold TheStorage.storageInit
  rw [bind_ok (modify_apply _ _), release]
  exact (bind_ok (keys _) _).trans (bind_ok (data _) _)

/-- A call on a whole storage returns when the call on its contents does, and with the same contents. -/
theorem TheStorageOp.run_mirrors {s : Nat} {keyBlocks dataBlocks : List Block} (indexed : store.Indexed items)
    (holds : StorageHolds (ItemOwns s) store.storage keyBlocks dataBlocks) (release : store.indexes.debugBuild = false)
    (op : TheStorageOp) (valid : op.Valid) (mallocs : op.Mallocs) :
    Mirrors TheStorage.storage op.run op.contents.run store fun _ _ _ => True := by
  cases op with
  | write key points choose =>
      obtain ⟨_, keys⟩ := indexed.keys
      exact storageWrite_mirrors indexed.holds keys.keysDistinct release valid points mallocs
  | sync => exact storageSync_mirrors store
  | clean now => exact cleanItems_mirrors indexed.holds now
  | restart memory choose =>
      obtain ⟨keyDisk, openedKeys, disk, quiet, _⟩ := holds.keyDisk.toDiskFiles.reopen holds.keyQuiet
      obtain ⟨dataDisk, openedData, data, _⟩ := holds.dataDisk.toDiskFiles.reopen holds.dataQuiet
      refine mirrors_bind_left (get_apply store) rfl (mirrors_bind_right (get_apply store.storage) ?_)
      exact (storageInit_mirrors openedKeys openedData disk quiet holds.keysHold.loadable holds.keyBounded
        data.toDiskFiles.header.short release mallocs _ _ memory).pure_right _

/-- The calls of a list. -/
theorem runs_mirrors {s : Nat} (large : 4 < s) (ops : List TheStorageOp) :
    ∀ {store : TheStorage} {items : List IndexItem} {keyBlocks dataBlocks : List Block}, store.Indexed items →
      StorageHolds (ItemOwns s) store.storage keyBlocks dataBlocks → store.storage.initialTscBufSize = s →
      store.indexes.debugBuild = false → (∀ op ∈ ops, op.contents.Valid) → (∀ op ∈ ops, op.Mallocs) →
      Mirrors TheStorage.storage (ops.forM TheStorageOp.run) (runOps (ops.map TheStorageOp.contents)) store
        fun _ _ _ => True := by
  induction ops with
  | nil => exact fun _ _ _ _ _ _ => .returns rfl rfl trivial
  | cons op rest ih =>
      intro store items keyBlocks dataBlocks indexed holds size release valid mallocs
      subst size
      obtain ⟨first, others⟩ := List.forall_mem_cons.mp valid
      obtain ⟨memory, more⟩ := List.forall_mem_cons.mp mallocs
      have named : op.Valid := by
        cases op with
        | write key points choose => exact first.1
        | _ => exact trivial
      have step := op.run_mirrors indexed holds release named memory
      cases step with
      | stops run same => exact .stops (bind_error run _) (bind_error same _)
      | @returns value written after run same _ =>
          obtain ⟨setup, list, still⟩ := op.run_indexed indexed named run
          obtain ⟨config, names, later, kept⟩ := (op.contents.run_kept (ownLaw _) large holds first
            (fun _ _ _ made => made.owns (blockAt_zero dataBlocks))).of_ok same
          have next := ih still kept config.initialTscBufSize (setup.debugBuild.trans release) others more
          refine mirrors_of_eq (bind_ok run _) (bind_ok same _) ?_
          exact next.pure_right _

end

theorem keysLoadable_nil : KeysLoadable (blockAt []) where
  readable := fun _ _ found => by cases found
  unique := fun _ _ _ _ found => by cases found

/-- On every list of calls a whole storage returns when its contents do, and with the same contents. The trees, the list
and the addresses of the items stop no call. -/
theorem initAndRun_contents_iff (retentionSeconds : Int) {s : Nat} (large : 4 < s) (indices : List CString)
    {choose : Indexes → Nat} (mallocs : Mallocs choose) {ops : List TheStorageOp} (valid : ∀ op ∈ ops, op.contents.Valid)
    (memories : ∀ op ∈ ops, op.Mallocs) (storage : Storage) :
    (∃ results, initAndRun retentionSeconds s (ops.map TheStorageOp.contents) newStorage = .ok results storage) ↔
      ∃ indexes, TheStorage.initAndRun retentionSeconds s choose ops ⟨newStorage, Indexes.init false indices⟩ =
        .ok () ⟨storage, indexes⟩ := by
  have bounded : Bounded keyBound (blockAt []) := fun _ _ found => by cases found
  have start : Mirrors TheStorage.storage (TheStorage.storageInit retentionSeconds s (fun _ _ => 0) choose)
      (storageInit retentionSeconds s fun _ _ => 0) ⟨newStorage, Indexes.init false indices⟩ fun _ _ _ => True :=
    storageInit_mirrors newStore_open newStore_open createdStore_holds rfl keysLoadable_nil bounded (by decide) rfl mallocs
      retentionSeconds s fun _ _ => 0
  have whole : Mirrors TheStorage.storage (TheStorage.initAndRun retentionSeconds s choose ops)
      (initAndRun retentionSeconds s (ops.map TheStorageOp.contents)) ⟨newStorage, Indexes.init false indices⟩
      fun _ _ _ => True := by
    refine start.bind_of ?_
    intro _ _ after run same _
    obtain ⟨size, _, _, release, items, indexed⟩ := TheStorage.storageInit_indexed newStore_open createdStore_holds rfl
      keysLoadable_nil bounded run
    obtain ⟨storage, names, made, _, _, none, holds⟩ := storageInit_new retentionSeconds s fun _ _ => 0
    obtain rfl : storage = after.storage := by
      have both := made.symm.trans same
      cases both
      rfl
    refine runs_mirrors large ops indexed (holds.mono fun item member => ?_) size release valid memories
    rw [none] at member
    cases member
  rw [whole.returns_iff storage]
  constructor
  · rintro ⟨_, after, run, rfl⟩
    exact ⟨after.indexes, run⟩
  · rintro ⟨indexes, run⟩
    exact ⟨_, _, run, rfl⟩

theorem leastAddress_mallocs : Mallocs leastAddress := by
  rintro indexes ⟨address, ⟨positive, small⟩, unused⟩
  let used := (indexes.root internalIdIndex).toList.map IndexItem.address
  have free : address ∉ used := by
    intro mem
    obtain ⟨item, there, same⟩ := List.mem_map.mp mem
    exact unused item there same
  -- One of the first addresses is not in use, because there are more of them than items.
  have exists_free : ∃ place ∈ List.range (used.length + 1), place + 1 ∉ used := by
    have fewer : used.toFinset.card < (Finset.Ico 1 (used.length + 2)).card := by
      rw [Nat.card_Ico]
      have := List.toFinset_card_le used
      omega
    obtain ⟨place, inside, absent⟩ := Finset.exists_mem_notMem_of_card_lt_card fewer
    obtain ⟨low, high⟩ := Finset.mem_Ico.mp inside
    refine ⟨place - 1, List.mem_range.mpr (by omega), ?_⟩
    rw [Nat.sub_add_cancel low]
    exact fun mem => absent (List.mem_toFinset.mpr mem)
  obtain ⟨place, found⟩ : ∃ place,
      ((List.range (used.length + 1)).find? fun address => address + 1 ∉ used) = some place := by
    obtain ⟨place, inside, absent⟩ := exists_free
    exact Option.isSome_iff_exists.mp (List.find?_isSome.mpr ⟨place, inside, decide_eq_true absent⟩)
  obtain ⟨absent, _, earlier⟩ := List.find?_range_eq_some.mp found
  have least : leastAddress indexes = place + 1 := by
    change (((List.range (used.length + 1)).find? fun address => address + 1 ∉ used).getD 0) + 1 = place + 1
    rw [found]
    rfl
  rw [least]
  refine ⟨⟨Nat.succ_pos _, ?_⟩, ?_⟩
  · by_contra large
    have before := earlier (address - 1) (by omega)
    rw [Nat.sub_add_cancel positive] at before
    exact free (by simpa using before)
  · intro item mem same
    have inside : place + 1 ∈ used := same ▸ List.mem_map_of_mem mem
    exact (of_decide_eq_true absent) inside

/-- A write, a restart that loads the key, and a clean. -/
theorem initAndRun_contents_iff_restarted :
    ∃ storage indexes, storage.items.map StorageItem.key = [some [97]] ∧
      TheStorage.initAndRun 10 28 leastAddress [.write [97] [(3#64, 7#64)] leastAddress, .sync,
        .restart (fun _ _ => 0) leastAddress, .clean 12] ⟨newStorage, Indexes.init false []⟩ = .ok () ⟨storage, indexes⟩ := by
  have passed : (initAndRun 10 28 [.write [97] [(3#64, 7#64)], .sync, .restart fun _ _ => 0, .clean 12] newStorage).passes
      (fun _ store => store.items.map StorageItem.key = [some [97]]) = true := by
    decide +kernel
  obtain ⟨results, storage, run, items⟩ := EStateM.Result.of_passes passed
  have valid : ∀ op ∈ [TheStorageOp.write [97] [(3#64, 7#64)] leastAddress, .sync, .restart (fun _ _ => 0) leastAddress,
      .clean 12], op.contents.Valid := by
    simp [TheStorageOp.contents, StorageOp.Valid, ValidKey, maxLfmSize]
  have memories : ∀ op ∈ [TheStorageOp.write [97] [(3#64, 7#64)] leastAddress, .sync,
      .restart (fun _ _ => 0) leastAddress, .clean 12], op.Mallocs := by
    simp [TheStorageOp.Mallocs, leastAddress_mallocs]
  obtain ⟨indexes, whole⟩ := (initAndRun_contents_iff 10 (by decide) [] leastAddress_mallocs valid memories storage).mp
    ⟨results, run⟩
  exact ⟨storage, indexes, by simpa using items, whole⟩

end Menoetius
