import Menoetius.CleanerBatch
import Menoetius.TheStorageStart

/-
This file shows that the trees, the list and the keys of a storage agree in every run with restarts.
-/

namespace Menoetius
open LinkedList

section
variable {store after : TheStorage} {items : List IndexItem}

theorem storageWrite_indexed (indexed : store.Indexed items) {key : List UInt8} (valid : ValidKey key)
    {points : List Point} {choose : Indexes → Nat} (run : (TheStorageOp.write key points choose).run store = .ok () after) :
    SameSetup store after ∧ ∃ more, after.Indexed more := by
  obtain ⟨address, _, new, write⟩ := EStateM.of_bind_ok run
  obtain ⟨same, fresh⟩ := of_newAddress new
  rw [same] at write
  obtain ⟨written, _, wrote, ended⟩ := EStateM.of_bind_ok write
  cases ended
  have grows := storageWrite_grows indexed.holds valid fresh wrote
  obtain ⟨keyBlocks, keys⟩ := indexed.keys
  rw [TheStorage.storageWrite_eq indexed.holds keys.keysDistinct valid fresh] at wrote
  obtain ⟨item, _, got, wrote⟩ := EStateM.of_bind_ok wrote
  obtain ⟨indexes, found, rfl⟩ := of_onIndexes got
  obtain ⟨storage, stored, rfl⟩ := of_onStorage wrote
  have later := storageWrite_keys keys valid stored
  have setup : indexes.indices = store.indexes.indices ∧ indexes.debugBuild = store.indexes.debugBuild := by
    rcases Indexes.storageGetItem_keeps indexed.holds.consistent valid fresh found with
      ⟨rfl, _⟩ | ⟨_, _, _, _, _, _, indices, debugBuild⟩
    · exact ⟨rfl, rfl⟩
    · exact ⟨indices, debugBuild⟩
  refine ⟨⟨grows.config, setup.1, setup.2⟩, ?_⟩
  rcases grows.list with holds | ⟨item, _, holds⟩
  · exact ⟨items, holds, later⟩
  · exact ⟨items ++ [item], holds, later⟩

theorem storageSync_indexed (indexed : store.Indexed items) (run : TheStorageOp.sync.run store = .ok () after) :
    SameSetup store after ∧ after.Indexed items := by
  obtain ⟨storage, rfl, same⟩ := ignoreCode_ok
    (onStorage_ends (storageSync_view place_showsId place_hidesData indexed.holds.storageDistinct)) run
  exact ⟨⟨same.placeNames.toSameConfig, rfl, rfl⟩, indexed.view same⟩

/-- An item that is trimmed stays in both views, or leaves both. -/
theorem cleanItem_indexed {front rest : List IndexItem} {item : IndexItem} {t : Int}
    (indexed : store.Indexed (front ++ item :: rest)) {next : Option IndexItem}
    (run : TheStorage.cleanItem t item store = .ok next after) :
    next = rest.head? ∧ SameSetup store after ∧ ∃ kept, after.Indexed (kept ++ rest) := by
  obtain ⟨saved, config, _, kept, _, holds⟩ := cleanItem_holds indexed.holds run
  obtain ⟨shouldDelete, _, trim, run⟩ := EStateM.of_bind_ok run
  obtain ⟨storage, trimmed, rfl⟩ := of_onStorage trim
  have same := (onItem_view place_showsId (storageTrimAndWriteToDisk_keeps place_hidesData t)
    indexed.holds.storageDistinct _).of_ok trimmed
  obtain ⟨keyBlocks, keys⟩ := (indexed.view same).keys
  cases shouldDelete with
  | false =>
      cases run
      exact ⟨saved, ⟨config, rfl, rfl⟩, kept, holds, keyBlocks, keys⟩
  | true =>
      obtain ⟨_, _, start, run⟩ := EStateM.of_bind_ok run
      cases start
      obtain ⟨_, _, unlink, run⟩ := EStateM.of_bind_ok run
      obtain ⟨_, _, release, ended⟩ := EStateM.of_bind_ok run
      cases ended
      obtain ⟨indexes, unlinked, rfl⟩ := of_onIndexes_unit unlink
      obtain ⟨storage, released, rfl⟩ := of_onStorage release
      obtain ⟨other, deleted, _, setup⟩ := Indexes.storageDeleteItem_run indexed.holds.consistent
      obtain rfl : other = indexes := Except.ok.inj (deleted.symm.trans unlinked)
      exact ⟨saved, ⟨config, by rw [setup], by rw [setup]⟩, kept, holds, storageDeleteItem_keys keys released⟩

/-- `clean_items` passes the items of the list one after the other. -/
theorem cleanItemsLoop_indexed {t : Int} (rounds : Nat) :
    ∀ {store after : TheStorage} {front ahead : List IndexItem}, store.Indexed (front ++ ahead) →
      TheStorage.cleanItemsLoop t rounds ahead.head? store = .ok () after →
      SameSetup store after ∧ ∃ kept, after.Indexed kept := by
  induction rounds with
  | zero =>
      intro store after front ahead indexed run
      cases ahead with
      | nil =>
          cases run
          exact ⟨.refl _, front ++ [], indexed⟩
      | cons item rest => cases run
  | succ rounds ih =>
      intro store after front ahead indexed run
      cases ahead with
      | nil =>
          cases run
          exact ⟨.refl _, front ++ [], indexed⟩
      | cons item rest =>
          obtain ⟨next, middle, passed, run⟩ := EStateM.of_bind_ok run
          obtain ⟨rfl, setup, kept, still⟩ := cleanItem_indexed indexed passed
          obtain ⟨again, others⟩ := ih still run
          exact ⟨setup.trans again, others⟩

theorem cleanItems_indexed (indexed : store.Indexed items) {now : Int}
    (run : (TheStorageOp.clean now).run store = .ok () after) :
    SameSetup store after ∧ ∃ kept, after.Indexed kept := by
  obtain ⟨_, _, start, run⟩ := EStateM.of_bind_ok run
  cases start
  rw [indexed.holds.consistent.list.first] at run
  exact @cleanItemsLoop_indexed _ _ _ _ [] items indexed run

theorem restart_indexed (indexed : store.Indexed items) {memory : Nat → Nat → UInt8} {choose : Indexes → Nat}
    (run : (TheStorageOp.restart memory choose).run store = .ok () after) :
    SameSetup store after ∧ ∃ loaded, after.Indexed loaded := by
  obtain ⟨_, _, start, run⟩ := EStateM.of_bind_ok run
  cases start
  obtain ⟨keyBlocks, keys⟩ := indexed.keys
  obtain ⟨keyDisk, opened, disk, quiet, _⟩ := keys.keyDisk.toDiskFiles.reopen keys.keyQuiet
  obtain ⟨size, retention, indices, debugBuild, loaded, started⟩ :=
    TheStorage.storageInit_indexed opened disk quiet keys.loadable keys.keyBounded run
  exact ⟨⟨⟨size, retention⟩, indices, debugBuild⟩, loaded, started⟩

/-- Every call that returns leaves the trees, the list and the keys in agreement. -/
theorem TheStorageOp.run_indexed (indexed : store.Indexed items) (op : TheStorageOp) (valid : op.Valid)
    (run : op.run store = .ok () after) : SameSetup store after ∧ ∃ others, after.Indexed others := by
  cases op with
  | write key points choose => exact storageWrite_indexed indexed valid run
  | sync =>
      obtain ⟨setup, still⟩ := storageSync_indexed indexed run
      exact ⟨setup, items, still⟩
  | clean now => exact cleanItems_indexed indexed run
  | restart memory choose => exact restart_indexed indexed run

end

section
variable {retentionSeconds : Int} {s : Nat} {debugBuild : Bool} {indices : List CString} {store : TheStorage}

theorem TheStorageRun.indexed (run : TheStorageRun retentionSeconds s debugBuild indices store) :
    store.indexes.indices = indices ∧ ∃ items, store.Indexed items := by
  induction run with
  | init memory choose run =>
      have none : ∀ offset block, blockAt [] offset = some block → False := by
        intro offset block found
        cases found
      obtain ⟨_, _, same, _, items, indexed⟩ := TheStorage.storageInit_indexed newStore_open createdStore_holds rfl
        ⟨fun offset block found => (none offset block found).elim,
          fun first _ block _ found => (none first block found).elim⟩
        (fun offset block found => (none offset block found).elim) run
      exact ⟨same, items, indexed⟩
  | step earlier op valid run ih =>
      obtain ⟨named, items, indexed⟩ := ih
      obtain ⟨setup, others, still⟩ := op.run_indexed indexed valid run
      exact ⟨setup.indices.trans named, others, still⟩

end

/-- The trees and the list of a storage agree. -/
structure TheStorage.IndexesAgree (store : TheStorage) (indices : List CString) : Prop where
  contents : store.indexes.listItems.map IndexItem.name = store.storage.names
  links : store.indexes.list.Holds store.indexes.listItems
  inverse : ∀ first ∈ store.indexes.listItems, ∀ second ∈ store.indexes.listItems,
    store.indexes.list.next first = some second ↔ store.indexes.list.prev second = some first
  roots : store.indexes.roots.length = indices.length + numSpecialIndices
  perm : ∀ index < indices.length + numSpecialIndices,
    (store.indexes.root index).toList.Perm store.indexes.listItems
  sorted : ∀ index < indices.length + numSpecialIndices, (store.indexes.root index).toList.Pairwise (inOrder index)
  keys : (store.indexes.listItems.map IndexItem.key).Nodup
  found : ∀ key address item, (∃ after, store.indexes.storageGetItem key false address = .ok (item, after)) ↔
    item ∈ store.indexes.listItems ∧ item.key = some key

section
variable {store : TheStorage} {items : List IndexItem}

/-- A search without insertion ends at the item with the key. -/
theorem TheStorage.Indexed.storageGetItem_iff (indexed : store.Indexed items) (key : List UInt8) (address : Nat)
    (item : IndexItem) : (∃ after, store.indexes.storageGetItem key false address = .ok (item, after)) ↔
      item ∈ items ∧ item.key = some key := by
  have consistent := indexed.holds.consistent
  have keys : (items.map IndexItem.key).Nodup := by
    obtain ⟨_, keys⟩ := indexed.keys
    rw [← indexed.holds.storageKeys]
    exact keys.keysDistinct
  rcases consistent.findKey_cases key with ⟨other, member, found, named⟩ | ⟨missing, absent⟩
  · have get : store.indexes.storageGetItem key false address = .ok (other, store.indexes) := by
      rw [Indexes.storageGetItem, found]
      rfl
    rw [get]
    constructor
    · rintro ⟨after, same⟩
      cases same
      exact ⟨member, named⟩
    · rintro ⟨present, same⟩
      obtain rfl : other = item := List.inj_on_of_nodup_map keys member present (named.trans same.symm)
      exact ⟨_, rfl⟩
  · have get : store.indexes.storageGetItem key false address = .error (.code .lookupFailed) := by
      rw [Indexes.storageGetItem, missing]
      rfl
    rw [get]
    constructor
    · rintro ⟨after, same⟩
      cases same
    · rintro ⟨present, same⟩
      exact absurd same (absent item present)

end

section
variable {retentionSeconds : Int} {s : Nat} {debugBuild : Bool} {indices : List CString} {store : TheStorage}

/-- The trees, the list and the keys agree in every run. -/
theorem theStorageRun_indexesAgree (run : TheStorageRun retentionSeconds s debugBuild indices store) :
    store.IndexesAgree indices := by
  obtain ⟨named, items, indexed⟩ := run.indexed
  have consistent := indexed.holds.consistent
  have count := consistent.count
  rw [named] at count
  have list := consistent.listItems
  have perm : ∀ index < indices.length + numSpecialIndices, (store.indexes.root index).toList.Perm items := by
    intro index inside
    have same := consistent.perm index (count ▸ inside)
    rwa [List.append_nil, ite_self] at same
  refine
    { contents := ?_
      links := ?_
      inverse := ?_
      roots := count
      perm := ?_
      sorted := fun index inside => (consistent.indexed index (count ▸ inside)).sorted
      keys := ?_
      found := ?_ }
  all_goals rw [list]
  · exact indexed.holds.names
  · exact consistent.list
  · exact fun first member second other => consistent.list.next_iff member other
  · exact perm
  · obtain ⟨_, keys⟩ := indexed.keys
    rw [← indexed.holds.storageKeys]
    exact keys.keysDistinct
  · exact indexed.storageGetItem_iff

/-- The calls of a list after `storage_init` on a directory. -/
def TheStorage.initAndRun (retentionSeconds : Int) (s : Nat) (choose : Indexes → Nat) (ops : List TheStorageOp) :
    TheStorageM Unit := do
  storageInit retentionSeconds s (fun _ _ => 0) choose
  ops.forM TheStorageOp.run

/-- A list of calls that return is a run. -/
theorem TheStorageRun.steps (ops : List TheStorageOp) :
    ∀ {store after : TheStorage}, TheStorageRun retentionSeconds s debugBuild indices store →
      (∀ op ∈ ops, op.Valid) → ops.forM TheStorageOp.run store = .ok () after →
      TheStorageRun retentionSeconds s debugBuild indices after := by
  induction ops with
  | nil =>
      intro store after earlier _ run
      cases run
      exact earlier
  | cons op rest ih =>
      intro store after earlier valid run
      obtain ⟨_, middle, first, run⟩ := EStateM.of_bind_ok run
      obtain ⟨head, tail⟩ := List.forall_mem_cons.mp valid
      exact ih (earlier.step op head first) tail run

end

/-- The next address behind those in use. -/
def nextAddress (store : Indexes) : Nat := 16 * ((store.root internalIdIndex).toList.length + 1)

/-- The smallest address that is not in use. -/
def leastAddress (store : Indexes) : Nat :=
  let used := (store.root internalIdIndex).toList.map IndexItem.address
  (((List.range (used.length + 1)).find? fun address => address + 1 ∉ used).getD 0) + 1

/-- The storage has an index of the label `b`, whose values order two items against their ids. The items are made anew
when their keys are loaded after a restart. -/
theorem theStorageRun_indexesAgree_restarted :
    ∃ store, TheStorageRun 10 28 false [CString.at [98]] store ∧
      store.indexes.listItems.map IndexItem.internalId = [1, 2] ∧
      (store.indexes.root 3).toList.map IndexItem.internalId = [2, 1] ∧ store.IndexesAgree [CString.at [98]] := by
  have passed : (TheStorage.initAndRun 10 28 leastAddress
      [.write [109, 0, 98, 0, 50] [(3#64, 7#64)] leastAddress, .write [110, 0, 98, 0, 49] [(3#64, 7#64)] leastAddress,
        .sync, .restart (fun _ _ => 0) leastAddress] ⟨newStorage, Indexes.init false [CString.at [98]]⟩).passes
      (fun _ store => store.indexes.listItems.map IndexItem.internalId = [1, 2] ∧
        (store.indexes.root 3).toList.map IndexItem.internalId = [2, 1]) = true := by
    decide +kernel
  obtain ⟨_, store, run, checked⟩ := EStateM.Result.of_passes passed
  obtain ⟨ids, values⟩ := of_decide_eq_true checked
  obtain ⟨_, first, opened, run⟩ := EStateM.of_bind_ok run
  have start : TheStorageRun 10 28 false [CString.at [98]] first := .init _ _ opened
  have reached := TheStorageRun.steps _ start (by simp [TheStorageOp.Valid, ValidKey, maxLfmSize]) run
  exact ⟨store, reached, ids, values, theStorageRun_indexesAgree reached⟩

end Menoetius
