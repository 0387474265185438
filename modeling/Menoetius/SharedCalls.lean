import Menoetius.SharedLog
import Menoetius.TheStorageCalls
import Menoetius.TheStorageContents

/-
This file shows what single calls do to a whole storage with known timeseries.
-/

namespace Menoetius
open EStateM

/-- The same store, with the descriptor somewhere else. -/
def Moved (disk after : DiskStorage) : Prop := ∃ pos, after = disk.seekTo pos

instance : IsPreorder DiskStorage Moved where
  refl := fun disk => ⟨disk.fd.pos, rfl⟩
  trans := fun _ _ _ ⟨_, first⟩ ⟨pos, second⟩ => ⟨pos, by rw [second, first, seekTo_seekTo]⟩

/-- However a read of the disk ends, it only moves the descriptor. -/
abbrev Reading {α : Type} (action : DiskM α) : Prop := action.Relates Moved fun _ => True

theorem reading_require (condition : Prop) [Decidable condition] (site : Abort) :
    Reading (require condition site : DiskM Unit) :=
  relates_ite (relates_pure ()) (relates_throw _)

theorem reading_mustLseek (offset : Nat) : Reading (mustLseek .fd offset .set) := by
  refine Relates.bind (relates_get_bind fun disk => ?_) fun target => ?_
  · dsimp only
    split
    · exact ends_of_ok rfl ⟨_, rfl⟩
    · exact ends_of_ok rfl (Std.Refl.refl disk)
  · cases target with
    | none => exact relates_throw _
    | some target => exact relates_pure target

theorem reading_read (count : Nat) : Reading (read .fd count) :=
  relates_get_bind fun _ => ends_of_ok rfl ⟨_, rfl⟩

theorem diskStorageReadBlock_reading (offset maxN : Nat) : Reading (diskStorageReadBlock offset maxN) := by
  refine (reading_mustLseek offset).bind fun _ => (reading_read _).bind fun header => (reading_require _ _).bind fun _ => ?_
  refine relates_ite (relates_throw _) (relates_ite (relates_throw _) ?_)
  exact (reading_read _).bind fun _ => (reading_require _ _).bind fun _ => relates_pure _

theorem mustSucceed_reading {α : Type} {action : DiskM α} (reading : Reading action) (site : Abort) :
    Reading (mustSucceed action site) := by
  intro disk
  have work := reading disk
  cases run : action disk with
  | ok value after => exact ends_of_ok (by rw [mustSucceed, run]) (work.of_ok run)
  | error failure after =>
      cases failure with
      | code err => exact ends_of_error (by rw [mustSucceed, run]) (work.of_error run)
      | abort other => exact ends_of_error (by rw [mustSucceed, run]) (work.of_error run)

theorem storageGetBlocks_reading (internalId maxNumPts : Nat) (entries : List OffsetAndTime) (points : List Point) :
    Reading (storageGetBlocks internalId maxNumPts entries points) := by
  induction entries generalizing points with
  | nil => exact relates_pure points
  | cons entry rest ih =>
      unfold storageGetBlocks
      refine relates_ite (ih points) ((mustSucceed_reading (diskStorageReadBlock_reading _ _) _).bind fun read => ?_)
      refine relates_ite ((reading_require _ _).bind fun _ => relates_pure points) ?_
      refine (reading_require _ _).bind fun _ => Relates.bind (fun disk => ?_) ih
      cases storageGetPoints maxNumPts points (TscData.ofBytes (read.2.drop 8).length (read.2.drop 8)) with
      | ok more => exact ends_of_ok rfl (Std.Refl.refl disk)
      | error failure => exact ends_of_error rfl fun _ => Std.Refl.refl disk

section
variable {store : Storage} {keyBlocks dataBlocks : List Block} {model : Model} {key : List UInt8}

/-- However `storage_get` ends, it only moves the descriptor. -/
theorem storageGet_moves (distinct : (store.items.map StorageItem.internalId).Nodup) (maxNumPts : Nat) :
    (storageGet key maxNumPts).Ends store (fun _ after => ∃ pos, after = { store with
        dataDiskStore := store.dataDiskStore.seekTo pos }) fun _ after => ∃ pos, after = { store with
        dataDiskStore := store.dataDiskStore.seekTo pos } := by
  apply ((storageGetItem_sameNames key).mono (fun _ _ same => same) ?_).bind
  · intro internalId _ same
    rw [same]
    cases found : store.items.find? fun item => item.internalId = internalId with
    | none =>
        have stopped : ∀ action : ItemM (List Point), onItem internalId action store = .error (.abort .memory) store := by
          intro action
          simp only [onItem, found]
        exact ends_of_error (stopped _) ⟨store.dataDiskStore.fd.pos, rfl⟩
    | some item =>
        have member := List.mem_of_find?_eq_some found
        obtain rfl : item.internalId = internalId := by simpa using List.find?_some found
        have saved : ∀ {after : Storage}, (∃ state : ItemStore, (state.item = item ∧
            Moved store.dataDiskStore state.dataDiskStore) ∧ after = store.withItem state) →
            ∃ pos, after = { store with dataDiskStore := store.dataDiskStore.seekTo pos } := by
          rintro _ ⟨⟨_, _⟩, ⟨rfl, pos, rfl⟩, rfl⟩
          exact ⟨pos, Storage.withItem_self distinct member _⟩
        refine (onItem_ends distinct member ?_).mono (fun _ _ => saved) fun _ _ => saved
        refine ends_bind_ok (get_apply _) (Ends.bind (onBlocks_ends
          (storageGetBlocks_reading _ maxNumPts item.dataOffsets [] store.dataDiskStore) |>.mono
            (fun _ _ done => done) ?_) ?_)
        · rintro _ _ ⟨disk, moved, rfl⟩
          exact ⟨rfl, moved trivial⟩
        · rintro points _ ⟨disk, moved, rfl⟩
          dsimp only
          cases storageGetPoints maxNumPts points item.data.data with
          | ok more => exact ends_of_ok rfl ⟨rfl, moved⟩
          | error failure => exact ends_of_error rfl ⟨rfl, moved⟩
  · intro _ _ same
    exact ⟨store.dataDiskStore.fd.pos, same⟩

/-- The position of the descriptor does not matter. -/
theorem StorageModels.moved (models : StorageModels store keyBlocks dataBlocks model) (pos : Nat) :
    StorageModels { store with dataDiskStore := store.dataDiskStore.seekTo pos } keyBlocks dataBlocks model where
  toStorageHolds :=
    { models.toStorageHolds with
      dataDisk := models.dataDisk.seekTo pos
      dataQuiet := models.dataQuiet }
  present := models.present

/-- A read returns the points of the key, if they fit the arrays. -/
theorem StorageModels.get_ends (models : StorageModels store keyBlocks dataBlocks model)
    (small : store.initialTscBufSize + 38 ≤ 2 ^ 20) (key : List UInt8) (maxNumPts : Nat) :
    (storageGet key maxNumPts).Ends store (fun points _ => points = (model.seriesOf key).points ∧ points.length ≤ maxNumPts)
      fun failure _ => failure = .code .lookupFailed ∧ (model.seriesOf key).points = [] ∨
        failure = .code .tooManyPoints ∧ maxNumPts < (model.seriesOf key).points.length := by
  rw [Model.seriesOf]
  cases found : model key with
  | none => exact ends_of_error (storageGet_absent models found maxNumPts) (Or.inl ⟨rfl, rfl⟩)
  | some series =>
      obtain ⟨item, member, named, own⟩ := models.find found
      refine (storageGet_ends models.toStorageHolds member named own maxNumPts).mono ?_ ?_
      · rintro points _ ⟨rfl, few, _⟩
        exact ⟨rfl, few⟩
      · rintro failure _ (⟨code, many⟩ | ⟨_, entry, _, large⟩)
        · exact Or.inr ⟨code, many⟩
        · exact absurd (fun block there => (models.dataBounded _ block there).trans (blockBound_le small)) large

/-- The cleaner passes one item. -/
theorem StorageModels.cleanItem (models : StorageModels store keyBlocks dataBlocks model) {item : StorageItem}
    (member : item ∈ store.items) (named : item.key = some key) (t : Int) :
    ∃ after names later, (do
        let shouldDelete ← onItem item.internalId (storageTrimAndWriteToDisk t)
        if shouldDelete then storageDeleteItem item.internalId) store = .ok () after ∧ SameConfig store after ∧
      StorageModels after names later (model.cleanKey t key) := by
  have clean : ∀ {content : Nat → Option Block} {other : StorageItem}, other.key = some key →
      Keeps store.initialTscBufSize (model.clean t) content other →
      Keeps store.initialTscBufSize (model.cleanKey t key) content other := by
    rintro content other same ⟨name, series, other, found, holds⟩
    obtain rfl : name = key := Option.some.inj (other.symm.trans same)
    exact ⟨name, series, same, (Function.update_self _ _ _).trans found, holds⟩
  have old := keepsLaw store.initialTscBufSize t model
  have law : CleanLaw store.initialTscBufSize t
      (fun content other => Keeps store.initialTscBufSize model content other ∧ other.key = some key)
      (Keeps store.initialTscBufSize (model.cleanKey t key)) :=
    { owns := fun zero holds => old.owns zero holds.1
      frame := fun holds different frame => ⟨old.frame holds.1 different frame, holds.2⟩
      frameDone := (keepsLaw store.initialTscBufSize t (model.cleanKey t key)).frame
      trim := fun zero holds alive released => clean holds.2 (old.trim zero holds.1 alive released) }
  have pending : StorageHolds (Pending (fun content other => Keeps store.initialTscBufSize model content other ∧
      other.key = some key) (Keeps store.initialTscBufSize (model.cleanKey t key)) (item.internalId :: [])) store keyBlocks
      dataBlocks := by
    refine models.toStorageHolds.mono fun other present kept => ?_
    unfold Pending
    by_cases here : other.internalId = item.internalId
    · obtain rfl := eq_of_nodup_map models.ids present member here
      rw [if_pos List.mem_cons_self]
      exact ⟨kept, named⟩
    · rw [if_neg (by simpa using here)]
      obtain ⟨name, series, same, found, holds⟩ := kept
      refine ⟨name, series, same, (Function.update_of_ne ?_ _ _).trans found, holds⟩
      rintro rfl
      exact here (congrArg StorageItem.internalId (eq_of_nodup_map models.keysDistinct present member (same.trans named.symm)))
  obtain ⟨front, rest, split⟩ := List.append_of_mem member
  obtain ⟨shouldDelete, middle, after, names, later, trim, drop, holds, same, items⟩ :=
    cleanStep_run law pending split List.not_mem_nil
  refine ⟨after, names, later, (bind_ok trim _).trans ?_, same, ?_, ?_⟩
  · exact drop
  · rw [same.initialTscBufSize]
    exact holds.mono fun other _ kept => by simpa [Pending] using kept
  · intro name series found
    rw [items]
    by_cases here : name = key
    · subst here
      rw [Model.cleanKey, Function.update_self, Model.clean, Option.bind_eq_some_iff] at found
      obtain ⟨before, there, found⟩ := found
      obtain ⟨other, present, same, own⟩ := models.find there
      obtain rfl := eq_of_nodup_map models.keysDistinct present member (same.trans named.symm)
      have alive : ¬ other.Expired t := by
        intro old
        rw [StorageItem.Expired, own.stream.lastTime] at old
        rw [if_pos old] at found
        cases found
      refine ⟨other.trimmed t, List.mem_append_left _ (List.mem_append_right _ ?_), same⟩
      exact List.mem_map_of_mem (List.mem_filter.mpr ⟨List.mem_cons_self, by simpa using alive⟩)
    · rw [Model.cleanKey, Function.update_of_ne here] at found
      obtain ⟨other, present, same⟩ := models.present name series found
      rw [split] at present
      refine ⟨other, ?_, same⟩
      rcases List.mem_append.mp present with front | back
      · exact List.mem_append_left _ (List.mem_append_left _ front)
      · rcases List.mem_cons.mp back with rfl | back
        · exact absurd (Option.some.inj (same.symm.trans named)) here
        · exact List.mem_append_right _ back

end

section
variable {α : Type} {action : ItemM α}

theorem onItem_onlyAborts (internalId : Nat) (aborts : OnlyAborts action) : OnlyAborts (onItem internalId action) := by
  intro store
  cases found : store.items.find? fun item => item.internalId = internalId with
  | none =>
      have stopped : onItem internalId action store = .error (.abort .memory) store := by simp only [onItem, found]
      exact ends_of_error stopped ⟨_, rfl⟩
  | some item =>
      have work := aborts ⟨item, store.dataDiskStore⟩
      cases run : action ⟨item, store.dataDiskStore⟩ with
      | ok value after =>
          have done : onItem internalId action store = .ok value (store.withItem after) := by simp only [onItem, found, run]
          exact ends_of_ok done trivial
      | error failure after =>
          have failed : onItem internalId action store = .error failure (store.withItem after) := by
            simp only [onItem, found, run]
          exact ends_of_error failed (work.of_error run)

theorem onBlocks_onlyAborts {action : DiskM α} (aborts : OnlyAborts action) : OnlyAborts (onBlocks action) := by
  intro state
  refine (onBlocks_ends (aborts state.dataDiskStore)).mono (fun _ _ _ => trivial) ?_
  rintro failure _ ⟨_, stops, _⟩
  exact stops

theorem onDataStore_onlyAborts {action : DiskM α} (aborts : OnlyAborts action) : OnlyAborts (onDataStore action) := by
  intro store
  have work := aborts store.dataDiskStore
  cases run : action store.dataDiskStore with
  | ok value after =>
      have done : onDataStore action store = .ok value { store with dataDiskStore := after } := by
        simp only [onDataStore, run]
      exact ends_of_ok done trivial
  | error failure after =>
      have failed : onDataStore action store = .error failure { store with dataDiskStore := after } := by
        simp only [onDataStore, run]
      exact ends_of_error failed (work.of_error run)

end

theorem trimIndex_onlyAborts (t : Int) (entries : List OffsetAndTime) :
    ∀ i saveI, OnlyAborts (trimIndex t i saveI entries) := by
  induction entries with
  | nil => exact fun _ saveI => onlyAborts_pure saveI
  | cons entry rest ih =>
      intro i saveI
      unfold trimIndex
      split
      · exact (onlyAborts_require _ _).bind fun _ => onlyAborts_pure _
      · split
        · exact ih _ _
        · exact onlyAborts_pure _

theorem trimBlocks_onlyAborts (entries : List OffsetAndTime) : OnlyAborts (trimBlocks entries) := by
  induction entries with
  | nil => exact onlyAborts_pure ()
  | cons entry rest ih => exact (onlyAborts_resultCode _).bind fun _ => ih

theorem deleteBlocks_onlyAborts (entries : List OffsetAndTime) : OnlyAborts (deleteBlocks entries) := by
  induction entries with
  | nil => exact onlyAborts_pure ()
  | cons entry rest ih =>
      unfold deleteBlocks
      split
      · exact onlyAborts_require _ _
      · exact (onlyAborts_resultCode _).bind fun _ => ih

theorem storageTrimAndWriteToDisk_onlyAborts (t : Int) : OnlyAborts (storageTrimAndWriteToDisk t) := by
  refine onlyAborts_get.bind fun state => ?_
  dsimp only
  split
  · exact onlyAborts_pure _
  · refine (trimIndex_onlyAborts t _ _ _).bind fun saveI => ?_
    split
    · exact (onBlocks_onlyAborts (trimBlocks_onlyAborts _)).bind fun _ => (onlyAborts_require _ _).bind fun _ =>
        (onlyAborts_modify _).bind fun _ => onlyAborts_pure _
    · exact onlyAborts_pure _

theorem storageDeleteItem_onlyAborts (internalId : Nat) : OnlyAborts (storageDeleteItem internalId) := by
  refine onlyAborts_get.bind fun store => ?_
  split
  · exact fun store => ends_of_error rfl ⟨_, rfl⟩
  · exact (onlyAborts_modify _).bind fun _ => (onDataStore_onlyAborts (deleteBlocks_onlyAborts _)).bind fun _ =>
      (onlyAborts_resultCode _).bind fun _ => onlyAborts_pure ()

/-- In a release build the trees and the list take every new key, as long as there are internal ids. -/
theorem Indexes.storageGetItem_insert {indexes : Indexes} {items : List IndexItem} (consistent : indexes.Consistent items [])
    (release : indexes.debugBuild = false) {key : List UInt8} (valid : ValidKey key) (address : Nat) :
    (∃ result, indexes.storageGetItem key true address = .ok result) ∨
      indexes.storageGetItem key true address = .error (.abort .storageNextInternalId) := by
  rcases consistent.findKey_cases key with ⟨item, _, found, _⟩ | ⟨absent, new⟩
  · refine .inl ⟨(item, indexes), ?_⟩
    rw [storageGetItem, found]
    rfl
  · obtain ⟨values, read⟩ := mapM_release (key ++ [0]) key.length indexes.indices
    rw [← release] at read
    by_cases last : indexes.nextInternalId + 1 = 2 ^ 63
    · refine .inr ?_
      have some : ¬ key.length = 0 := Nat.one_le_iff_ne_zero.mp valid.1
      rw [storageGetItem, absent]
      dsimp only
      rw [if_pos rfl, if_neg some, keyOf_valid valid, storageInsertItem_eq consistent read]
      exact if_pos last
    · obtain ⟨after, made⟩ := storageGetItem_new consistent valid new read last address
      exact .inl ⟨_, made⟩

/-- A storage of a release build whose trees, list and keys agree. -/
structure TheStorage.InOrder (store : TheStorage) : Prop where
  indexed : store.IsIndexed
  release : store.indexes.debugBuild = false

/-- The timeseries of the keys of a storage. -/
structure TheStorage.Shows (retentionSeconds : Int) (s : Nat) (model : Model) (store : TheStorage) : Prop where
  size : store.storage.initialTscBufSize = s
  retention : store.storage.retentionSeconds = retentionSeconds
  models : ∃ names later, StorageModels store.storage names later model

section
variable {store after : TheStorage} {retentionSeconds : Int} {s : Nat} {model : Model} {key : List UInt8}

theorem TheStorage.InOrder.setup (order : store.InOrder) (same : SameSetup store after) (indexed : after.IsIndexed) :
    after.InOrder :=
  ⟨indexed, same.debugBuild.trans order.release⟩

theorem TheStorage.Shows.step (shows : store.Shows retentionSeconds s model) {storage : Storage}
    (same : SameConfig store.storage storage) {names later : List Block} {changed : Model}
    (models : StorageModels storage names later changed) (indexes : Indexes) :
    TheStorage.Shows retentionSeconds s changed ⟨storage, indexes⟩ :=
  ⟨same.initialTscBufSize.trans shows.size, same.retentionSeconds.trans shows.retention, names, later, models⟩

/-- One point is written. -/
theorem theStorageWrite_ends (large : 28 ≤ s) (small : s + 38 ≤ 2 ^ 20) (order : store.InOrder) {choose : Indexes → Nat}
    (mallocs : Mallocs choose) (valid : ValidKey key) (point : Point) :
    EStateM.Ends (do
        let address ← TheStorage.newAddress choose
        Written.err <$> TheStorage.storageWrite key [point] address) store
      (fun err after => after.InOrder ∧ ∀ model, store.Shows retentionSeconds s model → 0 < point.1.toInt →
        ∃ written, WriteRun s (model.seriesOf key) [point] written ∧ written.err = err ∧
          after.Shows retentionSeconds s (model.write s key written.stored))
      fun failure _ => ¬ failure.IsCode ∧
        ∀ model, store.Shows retentionSeconds s model → 0 < point.1.toInt → OutOfRoom failure := by
  obtain ⟨items, indexed⟩ := order.indexed
  obtain ⟨_, keys⟩ := indexed.keys
  have same := @TheStorage.storageWrite_eq store items key indexed.holds keys.keysDistinct valid _
    (mallocs _ indexed.holds.exists_fresh) [point]
  have chosen := newAddress_run mallocs indexed.holds.exists_fresh
  refine ends_bind_ok chosen ?_
  rcases Indexes.storageGetItem_insert indexed.holds.consistent order.release valid (choose store.indexes) with
    ⟨result, got⟩ | stopped
  · have found : TheStorage.onIndexes (fun indexes => indexes.storageGetItem key true (choose store.indexes)) store =
        .ok result.1 { store with indexes := result.2 } := by simp only [TheStorage.onIndexes, got]
    cases wrote : storageWrite key [point] store.storage with
    | ok written storage =>
        have stored : TheStorage.onStorage (storageWrite key [point]) { store with indexes := result.2 } =
            .ok written ⟨storage, result.2⟩ := by simp only [TheStorage.onStorage, wrote]
        have run : TheStorage.storageWrite key [point] (choose store.indexes) store = .ok written ⟨storage, result.2⟩ :=
          same.trans ((bind_ok found _).trans stored)
        have called : (Written.err <$> TheStorage.storageWrite key [point] (choose store.indexes)) store =
            .ok written.err ⟨storage, result.2⟩ := by rw [map_apply, run]
        have step : (TheStorageOp.write key [point] choose).run store = .ok () ⟨storage, result.2⟩ :=
          (bind_ok chosen _).trans (bind_ok run _)
        obtain ⟨setup, still⟩ := storageWrite_indexed indexed valid step
        refine ends_of_ok called ⟨order.setup setup still, fun model shows positive => ?_⟩
        obtain ⟨names, later, models⟩ := shows.models
        obtain ⟨takes, same, names', later', kept⟩ := (storageWrite_ends models valid
          (by have := shows.size; omega) [point] (List.forall_mem_singleton.mpr positive)).of_ok wrote
        rw [shows.size] at takes kept
        exact ⟨written, takes, rfl, shows.step same kept _⟩
    | error failure storage =>
        have failed : TheStorage.onStorage (storageWrite key [point]) { store with indexes := result.2 } =
            .error failure ⟨storage, result.2⟩ := by simp only [TheStorage.onStorage, wrote]
        have run : TheStorage.storageWrite key [point] (choose store.indexes) store = .error failure ⟨storage, result.2⟩ :=
          same.trans ((bind_ok found _).trans failed)
        have called : (Written.err <$> TheStorage.storageWrite key [point] (choose store.indexes)) store =
            .error failure ⟨storage, result.2⟩ := by rw [map_apply, run]
        refine ends_of_error called ⟨?_, fun model shows positive => ?_⟩
        · obtain ⟨site, rfl⟩ := (storageWrite_onlyAborts key [point] store.storage).of_error wrote
          exact id
        · obtain ⟨names, later, models⟩ := shows.models
          have stops := (storageWrite_ends models valid (by have := shows.size; omega) [point]
            (List.forall_mem_singleton.mpr positive)).of_error wrote
          rw [shows.size] at stops
          exact stops.outOfRoom large small
  · have failed : TheStorage.onIndexes (fun indexes => indexes.storageGetItem key true (choose store.indexes)) store =
        .error (.abort .storageNextInternalId) store := by simp only [TheStorage.onIndexes, stopped]
    have called : (Written.err <$> TheStorage.storageWrite key [point] (choose store.indexes)) store =
        .error (.abort .storageNextInternalId) store := by
      rw [map_apply, same, bind_error failed]
    exact ends_of_error called ⟨id, fun _ _ _ => .inl rfl⟩

/-- All items are copied to disk. -/
theorem theStorageSync_ends (order : store.InOrder) :
    (resultCode TheStorage.storageSync).Ends store
      (fun err after => after.InOrder ∧ ∀ model, store.Shows retentionSeconds s model →
        after.Shows retentionSeconds s (if err = none then model.sync else model))
      fun failure _ => ¬ failure.IsCode ∧ ∀ model, store.Shows retentionSeconds s model →
        (∀ key series, model key = some series → series.stream ≠ []) → OutOfRoom failure := by
  obtain ⟨items, indexed⟩ := order.indexed
  have view := storageSync_view place_showsId place_hidesData indexed.holds.storageDistinct
  cases synced : storageSync store.storage with
  | ok value storage =>
      have done : TheStorage.storageSync store = .ok value { store with storage } := by
        simp only [TheStorage.storageSync, TheStorage.onStorage, synced]
      refine ends_of_ok (resultCode_ok done) ⟨⟨⟨items, indexed.view (view.of_ok synced)⟩, order.release⟩, ?_⟩
      intro model shows
      obtain ⟨names, later, models⟩ := shows.models
      obtain ⟨same, _, later', kept⟩ := (storageSync_ends models).of_ok synced
      rw [if_pos rfl]
      exact shows.step same kept _
  | error failure storage =>
      have failed : TheStorage.storageSync store = .error failure { store with storage } := by
        simp only [TheStorage.storageSync, TheStorage.onStorage, synced]
      cases failure with
      | code err =>
          refine ends_of_ok (resultCode_code failed) ⟨⟨⟨items, indexed.view (view.of_error synced)⟩, order.release⟩, ?_⟩
          intro model shows
          obtain ⟨names, later, models⟩ := shows.models
          obtain ⟨_, _, same, later', kept⟩ := (storageSync_ends models).of_error synced
          rw [if_neg (Option.some_ne_none err)]
          exact shows.step same kept _
      | abort site =>
          have stopped : resultCode TheStorage.storageSync store = .error (.abort site) { store with storage } := by
            rw [resultCode, failed]
          refine ends_of_error stopped ⟨id, fun model shows streams => ?_⟩
          obtain ⟨names, later, models⟩ := shows.models
          exact SyncStops.outOfRoom ((storageSync_ends models).of_error synced) streams

/-- A read does not change the timeseries. -/
theorem theStorageGet_ends (small : s + 38 ≤ 2 ^ 20) (order : store.InOrder) (key : List UInt8) (maxNumPts : Nat) :
    (TheStorage.storageGet key maxNumPts).Ends store
      (fun points after => after.InOrder ∧ ∀ model, store.Shows retentionSeconds s model →
        after.Shows retentionSeconds s model ∧ points = (model.seriesOf key).points ∧ points.length ≤ maxNumPts)
      fun failure after => after.InOrder ∧ ∀ model, store.Shows retentionSeconds s model →
        after.Shows retentionSeconds s model ∧ (failure = .code .lookupFailed ∧ (model.seriesOf key).points = [] ∨
          failure = .code .tooManyPoints ∧ maxNumPts < (model.seriesOf key).points.length) := by
  obtain ⟨items, indexed⟩ := order.indexed
  have view := storageGet_view indexed.holds.storageDistinct key maxNumPts
  have moves := @storageGet_moves store.storage key indexed.holds.storageDistinct maxNumPts
  have kept : ∀ storage, SameView StorageItem.place store.storage storage →
      TheStorage.InOrder { store with storage } := fun storage same => ⟨⟨items, indexed.view same⟩, order.release⟩
  have shown : ∀ storage model, (∃ pos, storage = { store.storage with
      dataDiskStore := store.storage.dataDiskStore.seekTo pos }) → store.Shows retentionSeconds s model →
      TheStorage.Shows retentionSeconds s model { store with storage } := by
    rintro _ model ⟨pos, rfl⟩ shows
    obtain ⟨names, later, models⟩ := shows.models
    exact ⟨shows.size, shows.retention, names, later, models.moved pos⟩
  have bounded : ∀ model, store.Shows retentionSeconds s model → ∃ names later,
      StorageModels store.storage names later model ∧ store.storage.initialTscBufSize + 38 ≤ 2 ^ 20 := by
    intro model shows
    obtain ⟨names, later, models⟩ := shows.models
    exact ⟨names, later, models, by have := shows.size; omega⟩
  obtain ⟨_, keys⟩ := indexed.keys
  have same := @TheStorage.storageGet_eq store items key indexed.holds keys.keysDistinct maxNumPts
  cases run : storageGet key maxNumPts store.storage with
  | ok points storage =>
      have done : TheStorage.storageGet key maxNumPts store = .ok points { store with storage } := by
        simp only [same, TheStorage.onStorage, run]
      refine ends_of_ok done ⟨kept storage (view.of_ok run), fun model shows => ?_⟩
      obtain ⟨names, later, models, room⟩ := bounded model shows
      exact ⟨shown storage model (moves.of_ok run) shows, (models.get_ends room key maxNumPts).of_ok run⟩
  | error failure storage =>
      have failed : TheStorage.storageGet key maxNumPts store = .error failure { store with storage } := by
        simp only [same, TheStorage.onStorage, run]
      refine ends_of_error failed ⟨kept storage (view.of_error run), fun model shows => ?_⟩
      obtain ⟨names, later, models, room⟩ := bounded model shows
      exact ⟨shown storage model (moves.of_error run) shows, (models.get_ends room key maxNumPts).of_error run⟩

theorem cleanItem_onlyAborts {front rest : List IndexItem} {item : IndexItem} (holds : store.Holds (front ++ item :: rest))
    (t : Int) : (TheStorage.cleanItem t item).Ends store (fun _ _ => True) fun failure _ => ∃ site, failure = .abort site := by
  cases trim : onItem item.internalId (storageTrimAndWriteToDisk t) store.storage with
  | error failure storage =>
      have failed : TheStorage.onStorage (onItem item.internalId (storageTrimAndWriteToDisk t)) store =
          .error failure { store with storage } := by simp only [TheStorage.onStorage, trim]
      exact ends_of_error (bind_error failed _)
        ((onItem_onlyAborts _ (storageTrimAndWriteToDisk_onlyAborts t) _).of_error trim)
  | ok shouldDelete storage =>
      have done : TheStorage.onStorage (onItem item.internalId (storageTrimAndWriteToDisk t)) store =
          .ok shouldDelete { store with storage } := by simp only [TheStorage.onStorage, trim]
      have same := (onItem_sameNames (storageTrimAndWriteToDisk_keeps name_hidesData t).name holds.storageDistinct _).of_ok trim
      have still := holds.withStorage same
      refine ends_bind_ok done ?_
      cases shouldDelete with
      | false => exact ends_of_ok (bind_ok (get_apply _) _) trivial
      | true =>
          obtain ⟨indexes, deleted, _⟩ := Indexes.storageDeleteItem_run still.consistent
          have unlinked : TheStorage.onIndexes (fun indexes => do
              let after ← indexes.storageDeleteItem item
              pure ((), after)) { store with storage } = .ok () ⟨storage, indexes⟩ := by
            simp only [TheStorage.onIndexes, deleted, Except.ok_bind]
            rfl
          refine ends_bind_ok (get_apply _) (ends_bind_ok unlinked ?_)
          cases released : storageDeleteItem item.internalId storage with
          | ok value last =>
              have freed : TheStorage.onStorage (storageDeleteItem item.internalId) ⟨storage, indexes⟩ =
                  .ok value ⟨last, indexes⟩ := by simp only [TheStorage.onStorage, released]
              exact ends_of_ok (bind_ok freed _) trivial
          | error failure last =>
              have failed : TheStorage.onStorage (storageDeleteItem item.internalId) ⟨storage, indexes⟩ =
                  .error failure ⟨last, indexes⟩ := by simp only [TheStorage.onStorage, released]
              exact ends_of_error (bind_error failed _) ((storageDeleteItem_onlyAborts _ _).of_error released)

end

/-- The work of the cleaner on the item of a key. `storage_thread_run` does it for up to `max_num_items` items of the list
while it holds the lock, and `clean_items` for all of them. -/
def TheStorage.cleanKey (now : Int) (key : List UInt8) : TheStorageM Unit := do
  let store ← get
  match store.indexes.listItems.find? fun item => item.key = some key with
  | none => pure ()
  | some item => do
      let _ ← TheStorage.cleanItem (now - store.storage.retentionSeconds) item

section
variable {store : TheStorage} {retentionSeconds : Int} {s : Nat}

theorem theStorageCleanKey_ends (order : store.InOrder) (now : Int) (key : List UInt8) :
    (TheStorage.cleanKey now key).Ends store
      (fun _ after => after.InOrder ∧ ∀ model, store.Shows retentionSeconds s model →
        after.Shows retentionSeconds s (model.cleanKey (now - retentionSeconds) key))
      fun failure _ => ¬ failure.IsCode ∧ ∀ model, ¬ store.Shows retentionSeconds s model := by
  obtain ⟨items, indexed⟩ := order.indexed
  refine ends_bind_ok (get_apply store) ?_
  rw [indexed.holds.consistent.listItems]
  cases found : items.find? fun item => item.key = some key with
  | none =>
      refine ends_of_ok rfl ⟨order, fun model shows => ?_⟩
      obtain ⟨names, later, models⟩ := shows.models
      have absent : model key = none := by
        by_contra some
        obtain ⟨series, there⟩ := Option.ne_none_iff_exists'.mp some
        obtain ⟨item, member, named⟩ := models.present key series there
        obtain ⟨other, present, same⟩ := indexed.holds.known_iff.mp ⟨item, member, named⟩
        have never := List.find?_eq_none.mp found other present
        exact never (by simpa using same)
      have same : model.cleanKey (now - retentionSeconds) key = model := by
        rw [Model.cleanKey, Model.clean, absent]
        exact Function.update_eq_self_iff.mpr absent.symm
      rw [same]
      exact shows
  | some item =>
      have present := List.mem_of_find?_eq_some found
      have named : item.key = some key := by simpa using List.find?_some found
      obtain ⟨front, rest, rfl⟩ := List.append_of_mem present
      have aborts := cleanItem_onlyAborts indexed.holds (now - store.storage.retentionSeconds)
      have mirrors := cleanItem_mirrors indexed.holds (now - store.storage.retentionSeconds)
      have contents : ∀ model, store.Shows retentionSeconds s model → ∃ storage, (do
          let shouldDelete ← onItem item.internalId (storageTrimAndWriteToDisk (now - store.storage.retentionSeconds))
          if shouldDelete then storageDeleteItem item.internalId) store.storage = .ok () storage ∧
          ∀ indexes, TheStorage.Shows retentionSeconds s (model.cleanKey (now - retentionSeconds) key) ⟨storage, indexes⟩ := by
        intro model shows
        obtain ⟨names, later, models⟩ := shows.models
        have there := List.mem_map_of_mem (f := IndexItem.name) present
        rw [indexed.holds.names] at there
        obtain ⟨other, member, same⟩ := List.mem_map.mp there
        obtain ⟨id, keyed⟩ := Prod.mk.inj same
        obtain ⟨storage, names', later', cleaned, config, kept⟩ := models.cleanItem member (keyed.trans named)
          (now - store.storage.retentionSeconds)
        rw [id] at cleaned
        rw [shows.retention] at kept
        exact ⟨storage, cleaned, fun indexes => shows.step config kept indexes⟩
      cases mirrors with
      | returns run same holds =>
          obtain ⟨_, setup, kept, still⟩ := cleanItem_indexed indexed run
          refine ends_of_ok (bind_ok run _) ⟨order.setup setup ⟨_, still⟩, fun model shows => ?_⟩
          obtain ⟨storage, cleaned, shown⟩ := contents model shows
          rw [cleaned] at same
          cases same
          exact shown _
      | stops run same =>
          refine ends_of_error (bind_error run _) ⟨?_, fun model shows => ?_⟩
          · obtain ⟨site, rfl⟩ := aborts.of_error run
            exact fun code => code
          · obtain ⟨storage, cleaned, _⟩ := contents model shows
            rw [cleaned] at same
            cases same

end

end Menoetius
