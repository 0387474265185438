import Menoetius.StorageClean

/-
This file lifts what the functions on one item keep to the whole storage.
-/

namespace Menoetius
open LittleEndian

/-- An item and the store of its blocks, with what is kept of the item. -/
structure KeptAt (keeps : (Nat → Option Block) → StorageItem → Prop) (blocks : List Block) (state : ItemStore) :
    Prop where
  disk : DiskHolds state.dataDiskStore blocks
  quiet : state.dataDiskStore.numBeforeCrash = none
  item : keeps (blockAt blocks) state.item

/-- A change of one item that keeps it. -/
structure KeptStep (keeps : (Nat → Option Block) → StorageItem → Prop) (s : Nat) (blocks later : List Block)
    (before after : ItemStore) : Prop extends ItemChange s blocks later before after where
  item : keeps (blockAt later) after.item

/-- The functions on one item keep it, or stop the process in one of these places. -/
structure ItemLaw (s : Nat) (keeps : (Nat → Option Block) → StorageItem → Prop) (stops : Abort → Prop) : Prop where
  owns : ∀ {content item}, content 0 = none → keeps content item → ItemOwns s content item
  fresh : ∀ {content internalId offset key data}, BlockHolds data [] → data.dataLen = s → internalId < 2 ^ 63 →
    (∀ offset block, content offset = some block → block.Live → carriedId block ≠ internalId) →
    keeps content ⟨internalId, some key, data, offset, []⟩
  frame : ∀ {content later item other}, keeps content item → item.internalId ≠ other →
    Frame other content later → keeps later item
  trim : ∀ {t content later item}, content 0 = none → keeps content item → ¬ item.Expired t →
    BlocksReleased (item.trimPlaces t) content later → keeps later (item.trimmed t)
  write : ∀ {blocks state} (points : List Point), KeptAt keeps blocks state → (∀ point ∈ points, 0 < point.1.toInt) →
    (storageWriteLoop points).Ends state (fun _ after => ∃ later, KeptStep keeps s blocks later state after)
      fun failure _ => ∃ site, failure = .abort site ∧ stops site
  sync : ∀ {blocks state}, KeptAt keeps blocks state →
    (storageWriteDisk false).Ends state (fun _ after => ∃ later, KeptStep keeps s blocks later state after)
      fun failure after =>
        match failure with
        | .code _ => ∃ later, KeptStep keeps s blocks later state after
        | .abort site => stops site

/-- The internal ids and the keys along the list of items. -/
def Storage.names (store : Storage) : List (Nat × Option (List UInt8)) :=
  store.items.map fun item => (item.internalId, item.key)

/-- The list of items is as before. -/
structure SameNames (store after : Storage) : Prop extends SameConfig store after where
  names : after.names = store.names
  next : after.nextInternalId = store.nextInternalId

/-- The list of items is as before, or has one more item at its end. -/
structure MoreNames (store after : Storage) (key : List UInt8) : Prop extends SameConfig store after where
  names : (after.names = store.names ∧ after.nextInternalId = store.nextInternalId) ∨
    (after.names = store.names ++ [(store.nextInternalId, some key)] ∧
      after.nextInternalId = store.nextInternalId + 1)

theorem SameNames.refl (store : Storage) : SameNames store store := ⟨.refl store, rfl, rfl⟩

theorem SameNames.trans {first second third : Storage} (start : SameNames first second)
    (rest : SameNames second third) : SameNames first third :=
  ⟨start.toSameConfig.trans rest.toSameConfig, rest.names.trans start.names, rest.next.trans start.next⟩

section
variable {keeps : (Nat → Option Block) → StorageItem → Prop} {stops : Abort → Prop} {store : Storage}
  {keyBlocks dataBlocks later : List Block} {item : StorageItem} {key : List UInt8} {state : ItemStore}

theorem withItem_names (distinct : (store.items.map StorageItem.internalId).Nodup) (member : item ∈ store.items)
    (change : ItemChange store.initialTscBufSize dataBlocks later ⟨item, store.dataDiskStore⟩ state) :
    SameNames store (store.withItem state) := by
  refine ⟨⟨rfl, rfl⟩, withItem_map _ distinct member change.internalId ?_, rfl⟩
  rw [change.internalId, change.key]

/-- A function on one item keeps the storage. -/
theorem StorageHolds.step (law : ItemLaw store.initialTscBufSize keeps stops)
    (holds : StorageHolds keeps store keyBlocks dataBlocks) (member : item ∈ store.items)
    (step : KeptStep keeps store.initialTscBufSize dataBlocks later ⟨item, store.dataDiskStore⟩ state) :
    StorageHolds keeps (store.withItem state) keyBlocks later :=
  holds.withItem member step.toItemChange step.item fun _ _ elsewhere kept => law.frame kept elsewhere step.frame

theorem StorageHolds.at (holds : StorageHolds keeps store keyBlocks dataBlocks) (member : item ∈ store.items) :
    KeptAt keeps dataBlocks ⟨item, store.dataDiskStore⟩ :=
  ⟨holds.dataDisk, holds.dataQuiet, holds.items item member⟩

/-- Writing to the item of a key. -/
theorem onItem_write (law : ItemLaw store.initialTscBufSize keeps stops)
    (holds : StorageHolds keeps store keyBlocks dataBlocks) (member : item ∈ store.items) (points : List Point)
    (positive : ∀ point ∈ points, 0 < point.1.toInt) :
    (onItem item.internalId (storageWriteLoop points)).Ends store
      (fun _ after => SameNames store after ∧ ∃ later, StorageHolds keeps after keyBlocks later)
      (fun failure _ => ∃ site, failure = .abort site ∧ stops site) := by
  apply (onItem_ends holds.ids member (law.write points (holds.at member) positive)).mono
  · rintro _ after ⟨state, ⟨later, step⟩, rfl⟩
    exact ⟨withItem_names holds.ids member step.toItemChange, later, holds.step law member step⟩
  · rintro failure after ⟨state, stopped, rfl⟩
    exact stopped

/-- A call of `storage_write` keeps the storage. -/
theorem storageWrite_kept (law : ItemLaw store.initialTscBufSize keeps stops) (large : 4 < store.initialTscBufSize)
    (holds : StorageHolds keeps store keyBlocks dataBlocks) (valid : ValidKey key) (points : List Point)
    (positive : ∀ point ∈ points, 0 < point.1.toInt) :
    (storageWrite key points).Ends store
      (fun _ after => MoreNames store after key ∧ ∃ names later, StorageHolds keeps after names later)
      (fun failure _ => (∃ site, failure = .abort site ∧ stops site) ∨
        NewItemStops store.initialTscBufSize failure) := by
  unfold storageWrite
  by_cases present : ∃ item ∈ store.items, item.key = some key
  · obtain ⟨item, member, named⟩ := present
    apply EStateM.ends_bind_ok (storageGetItem_present holds.keysDistinct member named true)
    apply (onItem_write law holds member points positive).mono
    · rintro _ after ⟨same, later, kept⟩
      exact ⟨⟨same.toSameConfig, Or.inl ⟨same.names, same.next⟩⟩, keyBlocks, later, kept⟩
    · exact fun _ _ stopped => Or.inl stopped
  · have absent : ∀ item ∈ store.items, item.key ≠ some key :=
      fun item member named => present ⟨item, member, named⟩
    apply EStateM.Ends.bind ((storageGetItem_new holds valid large absent).mono
      (fun _ _ done => done) fun _ _ stopped => Or.inr stopped)
    rintro _ middle ⟨rfl, data, offset, disk, names, wrote, rfl⟩
    have own : keeps (blockAt dataBlocks) ⟨store.nextInternalId, some key, data, offset, []⟩ :=
      law.fresh wrote.stream wrote.dataLen holds.next fun _ _ found live => holds.unused found live
    have begun := holds.withNew valid absent wrote own fun _ _ kept => kept
    apply (@onItem_write keeps stops (store.withNew key data offset disk) names dataBlocks _ law begun
      (List.mem_append_right _ List.mem_cons_self) points positive).mono
    · rintro _ after ⟨same, later, kept⟩
      refine ⟨⟨⟨same.initialTscBufSize, same.retentionSeconds⟩, Or.inr ⟨?_, same.next⟩⟩, names, later, kept⟩
      rw [same.names, Storage.names, Storage.withNew, List.map_append]
      rfl
    · exact fun _ _ stopped => Or.inl stopped

/-- The loop of `storage_sync` keeps the storage. -/
theorem storageSyncLoop_kept (ids : List Nat) :
    ∀ {store : Storage} {dataBlocks : List Block}, ItemLaw store.initialTscBufSize keeps stops →
      StorageHolds keeps store keyBlocks dataBlocks → (∀ id ∈ ids, ∃ item ∈ store.items, item.internalId = id) →
      (storageSyncLoop ids).Ends store
        (fun _ after => SameNames store after ∧ ∃ later, StorageHolds keeps after keyBlocks later)
        (fun failure after =>
          match failure with
          | .code _ => SameNames store after ∧ ∃ later, StorageHolds keeps after keyBlocks later
          | .abort site => stops site) := by
  induction ids with
  | nil =>
      intro store dataBlocks law holds _
      exact EStateM.ends_of_ok rfl ⟨.refl store, dataBlocks, holds⟩
  | cons id rest ih =>
      intro store dataBlocks law holds present
      obtain ⟨⟨item, member, rfl⟩, others⟩ := List.forall_mem_cons.mp present
      unfold storageSyncLoop
      apply EStateM.Ends.bind ((onItem_ends holds.ids member (law.sync (holds.at member))).mono
        (fun _ _ done => done) ?_)
      · rintro _ middle ⟨state, ⟨later, step⟩, rfl⟩
        have names := withItem_names holds.ids member step.toItemChange
        have still : ∀ id ∈ rest, ∃ item ∈ (store.withItem state).items, item.internalId = id := by
          intro id there
          obtain ⟨other, old, same⟩ := others id there
          have place : (other.internalId, other.key) ∈ (store.withItem state).names := by
            rw [names.names]
            exact List.mem_map_of_mem old
          obtain ⟨new, inside, equal⟩ := List.mem_map.mp place
          exact ⟨new, inside, (Prod.mk.inj equal).1.trans same⟩
        apply (@ih (store.withItem state) later law (holds.step law member step) still).mono
        · rintro _ after ⟨same, last, kept⟩
          exact ⟨names.trans same, last, kept⟩
        · intro failure after stopped
          cases failure with
          | code err => exact ⟨names.trans stopped.1, stopped.2⟩
          | abort site => exact stopped
      · rintro failure after ⟨state, stopped, rfl⟩
        cases failure with
        | code err =>
            obtain ⟨later, step⟩ := stopped
            exact ⟨withItem_names holds.ids member step.toItemChange, later, holds.step law member step⟩
        | abort site => exact stopped

/-- A call of `storage_sync` keeps the storage. -/
theorem storageSync_kept (law : ItemLaw store.initialTscBufSize keeps stops)
    (holds : StorageHolds keeps store keyBlocks dataBlocks) :
    storageSync.Ends store
      (fun _ after => SameNames store after ∧ ∃ later, StorageHolds keeps after keyBlocks later)
      (fun failure after =>
        match failure with
        | .code _ => SameNames store after ∧ ∃ later, StorageHolds keeps after keyBlocks later
        | .abort site => stops site) := by
  unfold storageSync
  apply EStateM.ends_bind_ok (EStateM.get_apply store)
  rw [holds.list_eq]
  apply storageSyncLoop_kept _ law holds
  intro id present
  obtain ⟨item, member, same⟩ := List.mem_map.mp present
  exact ⟨item, member, same⟩

/-- A clean keeps what the functions on one item keep. -/
theorem ItemLaw.clean {s : Nat} (law : ItemLaw s keeps stops) (t : Int) : CleanLaw s t keeps keeps :=
  ⟨law.owns, law.frame, law.frame, law.trim⟩

/-- `storage_init` on the directory that a process has left. -/
theorem storageInit_kept (law : ItemLaw store.initialTscBufSize keeps stops)
    (holds : StorageHolds keeps store keyBlocks dataBlocks) (memory : Nat → Nat → UInt8) :
    (storageInit store.retentionSeconds store.initialTscBufSize memory).Ends store
      (fun _ after => SameConfig store after ∧ ∃ names,
        StorageHolds (Reloaded store.initialTscBufSize) after names dataBlocks ∧
          FewerLive (blockAt keyBlocks) (blockAt names))
      (fun failure _ => LoadFails keyBlocks dataBlocks failure) := by
  have directory := holds.directory fun item _ kept => law.owns (blockAt_zero dataBlocks) kept
  apply (storageInit_ends directory store.retentionSeconds memory).mono
  · rintro _ after ⟨size, retention, names, loaded, fewer⟩
    exact ⟨⟨size, retention⟩, names, loaded, fewer⟩
  · exact fun _ _ failed => failed

end

end Menoetius
