import Menoetius.Cleaner
import Menoetius.StorageLaw

/-
This file shows which functions keep the internal ids and the keys of the items, whatever is on disk.
-/

namespace Menoetius

/-- The function on one item keeps its internal id and its key, also when it fails. -/
def KeepsName {α : Type} (action : ItemM α) : Prop :=
  ∀ state, action.Ends state
    (fun _ after => after.item.internalId = state.item.internalId ∧ after.item.key = state.item.key)
    fun _ after => after.item.internalId = state.item.internalId ∧ after.item.key = state.item.key

/-- The function on one item keeps what a view shows of it, also when it fails. -/
def KeepsView {α β : Type} (view : StorageItem → β) (action : ItemM α) : Prop :=
  ∀ state, action.Ends state (fun _ after => view after.item = view state.item)
    fun _ after => view after.item = view state.item

/-- The view shows neither the points in memory nor the blocks on disk. -/
def HidesData {β : Type} (view : StorageItem → β) : Prop :=
  ∀ item data dataOffsets, view { item with data := data, dataOffsets := dataOffsets } = view item

def StorageItem.name (item : StorageItem) : Nat × Option (List UInt8) := (item.internalId, item.key)

theorem name_hidesData : HidesData StorageItem.name := fun _ _ _ => rfl

theorem KeepsView.name {α : Type} {action : ItemM α} (keeps : KeepsView StorageItem.name action) : KeepsName action :=
  fun state => (keeps state).mono (fun _ _ same => Prod.mk.inj same) fun _ _ same => Prod.mk.inj same

section
variable {α β γ : Type} {view : StorageItem → γ}

theorem keepsView_pure (value : α) : KeepsView view (pure value) := fun _ => EStateM.ends_of_ok rfl rfl

theorem keepsView_throw (failure : Failure) : KeepsView view (throw failure : ItemM α) :=
  fun _ => EStateM.ends_of_error rfl rfl

theorem keepsView_get : KeepsView view get := fun _ => EStateM.ends_of_ok rfl rfl

theorem keepsView_modify {change : ItemStore → ItemStore} (same : ∀ state, view (change state).item = view state.item) :
    KeepsView view (modify change) :=
  fun state => EStateM.ends_of_ok rfl (same state)

theorem KeepsView.bind {first : ItemM α} {next : α → ItemM β} (start : KeepsView view first)
    (rest : ∀ value, KeepsView view (next value)) : KeepsView view (first >>= next) := by
  intro state
  cases run : first state with
  | ok value after =>
      have same := (start state).of_ok run
      apply EStateM.ends_bind_ok run
      apply (rest value after).mono
      · exact fun _ _ later => later.trans same
      · exact fun _ _ later => later.trans same
  | error failure after => exact EStateM.ends_of_error (EStateM.bind_error run next) ((start state).of_error run)

theorem keepsView_ite {condition : Prop} [Decidable condition] {first second : ItemM α} (yes : KeepsView view first)
    (no : KeepsView view second) : KeepsView view (if condition then first else second) := by
  split
  · exact yes
  · exact no

theorem keepsView_require (condition : Prop) [Decidable condition] (site : Abort) : KeepsView view (require condition site) :=
  keepsView_ite (keepsView_pure ()) (keepsView_throw _)

theorem keepsView_onBlocks (action : DiskM α) : KeepsView view (onBlocks action) := by
  intro state
  cases run : action state.dataDiskStore with
  | ok value after =>
      have done : onBlocks action state = .ok value { state with dataDiskStore := after } := by
        simp only [onBlocks, run]
      exact EStateM.ends_of_ok done rfl
  | error failure after =>
      have failed : onBlocks action state = .error failure { state with dataDiskStore := after } := by
        simp only [onBlocks, run]
      exact EStateM.ends_of_error failed rfl

theorem keepsView_onData (hides : HidesData view) (action : EStateM Failure TscHeader α) : KeepsView view (onData action) := by
  intro state
  cases run : action state.item.data with
  | ok value after =>
      have done : onData action state = .ok value { state with item := { state.item with data := after } } := by
        simp only [onData, run]
      exact EStateM.ends_of_ok done (hides _ _ _)
  | error failure after =>
      have failed : onData action state = .error failure { state with item := { state.item with data := after } } := by
        simp only [onData, run]
      exact EStateM.ends_of_error failed (hides _ _ _)

theorem keepsView_ofExcept (result : Except Failure α) : KeepsView view (ofExcept result) := by
  cases result with
  | ok value => exact keepsView_pure value
  | error failure => exact keepsView_throw failure

/-- What holds after every end of a call holds after the caller has looked at its code. -/
theorem resultCode_ends_always {σ : Type} {action : EStateM Failure σ Unit} {state : σ} {post : σ → Prop}
    (ends : action.Ends state (fun _ after => post after) fun _ after => post after) :
    (resultCode action).Ends state (fun _ after => post after) fun _ after => post after := by
  apply resultCode_ends
  apply ends.mono (fun _ _ done => done)
  intro failure after done
  cases failure <;> exact done

theorem KeepsView.resultCode {action : ItemM Unit} (keeps : KeepsView view action) : KeepsView view (resultCode action) :=
  fun state => resultCode_ends_always (keeps state)

theorem storageWriteDisk_keeps (hides : HidesData view) (completeBlock : Bool) :
    KeepsView view (storageWriteDisk completeBlock) := by
  unfold storageWriteDisk
  apply keepsView_get.bind
  intro state
  apply (keepsView_require _ _).bind fun _ => (keepsView_require _ _).bind fun _ => ?_
  dsimp only
  apply KeepsView.bind
  · exact keepsView_modify fun _ => hides _ _ _
  intro _
  apply keepsView_ite
  · apply (keepsView_onBlocks _).bind fun _ => (keepsView_require _ _).bind fun _ => ?_
    apply KeepsView.bind
    · exact keepsView_modify fun _ => hides _ _ _
    intro _
    exact keepsView_ite (keepsView_modify fun _ => hides _ _ _) (keepsView_pure ())
  · apply (keepsView_require _ _).bind fun _ => (keepsView_onBlocks _).bind fun _ => ?_
    exact keepsView_ite (keepsView_modify fun _ => hides _ _ _) (keepsView_pure ())

theorem storageWritePoint_keeps (hides : HidesData view) (point : Point) : KeepsView view (storageWritePoint point) := by
  have added := (keepsView_onData hides (tscAdd point.1 point.2)).resultCode
  unfold storageWritePoint
  apply added.bind
  intro code
  cases code with
  | none => exact keepsView_pure ()
  | some err =>
      cases err with
      | tscOutOfSpace =>
          apply (storageWriteDisk_keeps hides true).bind fun _ => added.bind fun code => ?_
          cases code with
          | none => exact keepsView_pure ()
          | some _ => exact keepsView_throw _
      | _ => exact keepsView_throw _

theorem storageWriteLoop_keeps (hides : HidesData view) (points : List Point) :
    KeepsView view (storageWriteLoop points) := by
  induction points with
  | nil => exact keepsView_pure _
  | cons point rest ih =>
      unfold storageWriteLoop
      apply (storageWritePoint_keeps hides point).resultCode.bind
      intro code
      cases code with
      | none => exact ih.bind fun _ => keepsView_pure _
      | some err => exact keepsView_pure _

theorem trimIndex_keeps (t : Int) (entries : List OffsetAndTime) :
    ∀ i saveI, KeepsView view (trimIndex t i saveI entries) := by
  induction entries with
  | nil => exact fun _ saveI => keepsView_pure saveI
  | cons entry rest ih =>
      intro i saveI
      unfold trimIndex
      apply keepsView_ite
      · exact (keepsView_require _ _).bind fun _ => keepsView_pure saveI
      · exact keepsView_ite (ih _ _) (keepsView_pure saveI)

theorem storageTrimAndWriteToDisk_keeps (hides : HidesData view) (t : Int) :
    KeepsView view (storageTrimAndWriteToDisk t) := by
  unfold storageTrimAndWriteToDisk
  apply keepsView_get.bind
  intro state
  dsimp only
  apply keepsView_ite (keepsView_pure true)
  apply (trimIndex_keeps t _ 0 0).bind
  intro saveI
  apply keepsView_ite
  · apply (keepsView_onBlocks _).bind fun _ => (keepsView_require _ _).bind fun _ => ?_
    apply KeepsView.bind
    · exact keepsView_modify fun _ => hides _ _ _
    · exact fun _ => keepsView_pure false
  · exact keepsView_pure false

theorem storageGetAll_keeps (internalId maxNumPts : Nat) : KeepsView view (storageGetAll internalId maxNumPts) :=
  keepsView_get.bind fun _ => (keepsView_onBlocks _).bind fun _ => keepsView_ofExcept _

end

section
variable {store after : Storage}

/-- Only points and blocks change, and nothing that the view shows. -/
structure SameView {β : Type} (view : StorageItem → β) (store after : Storage) : Prop where
  items : after.items.map view = store.items.map view
  rest : after = { store with items := after.items, dataDiskStore := after.dataDiskStore }

section
variable {β : Type} {view : StorageItem → β}

theorem SameView.refl (view : StorageItem → β) (store : Storage) : SameView view store store := ⟨rfl, rfl⟩

theorem SameView.trans {first second third : Storage} (start : SameView view first second)
    (rest : SameView view second third) : SameView view first third := by
  refine ⟨rest.items.trans start.items, ?_⟩
  rw [rest.rest, start.rest]

theorem SameView.names (same : SameView StorageItem.name store after) : SameNames store after := by
  have rest := same.rest
  refine ⟨⟨?_, ?_⟩, same.items, ?_⟩ <;> rw [rest]

/-- The view shows the internal id. -/
def ShowsId (view : StorageItem → β) : Prop := ∃ id : β → Nat, ∀ item, id (view item) = item.internalId

theorem SameView.ids (shows : ShowsId view) (same : SameView view store after) :
    after.items.map StorageItem.internalId = store.items.map StorageItem.internalId := by
  obtain ⟨id, shown⟩ := shows
  have ids := congrArg (List.map id) same.items
  rw [List.map_map, List.map_map] at ids
  exact (List.map_congr_left fun item _ => (shown item).symm).trans
    (ids.trans (List.map_congr_left fun item _ => shown item))

/-- A function on one item leaves what the view shows of the list. -/
theorem onItem_view {α : Type} {action : ItemM α} (shows : ShowsId view) (keeps : KeepsView view action)
    (distinct : (store.items.map StorageItem.internalId).Nodup) (internalId : Nat) :
    (onItem internalId action).Ends store (fun _ after => SameView view store after)
      fun _ after => SameView view store after := by
  cases found : store.items.find? fun item => item.internalId = internalId with
  | none =>
      have failed : onItem internalId action store = .error (.abort .memory) store := by
        simp only [onItem, found]
      exact EStateM.ends_of_error failed (.refl view store)
  | some item =>
      have member := List.mem_of_find?_eq_some found
      obtain rfl : item.internalId = internalId := by simpa using List.find?_some found
      have held : ∀ state : ItemStore, view state.item = view item → SameView view store (store.withItem state) := by
        intro state same
        obtain ⟨id, shown⟩ := shows
        have here : state.item.internalId = item.internalId := by rw [← shown, same, shown]
        exact ⟨withItem_map _ distinct member here same, rfl⟩
      apply (onItem_ends distinct member (keeps ⟨item, store.dataDiskStore⟩)).mono
      · intro _ _ done
        obtain ⟨state, same, rfl⟩ := done
        exact held state same
      · intro _ _ failed
        obtain ⟨state, same, rfl⟩ := failed
        exact held state same

theorem storageSyncLoop_view (shows : ShowsId view) (hides : HidesData view) (ids : List Nat) :
    ∀ {store : Storage}, (store.items.map StorageItem.internalId).Nodup →
      (storageSyncLoop ids).Ends store (fun _ after => SameView view store after)
        fun _ after => SameView view store after := by
  induction ids with
  | nil => exact fun _ => EStateM.ends_of_ok rfl (.refl view _)
  | cons internalId rest ih =>
      intro store distinct
      unfold storageSyncLoop
      apply (onItem_view shows (storageWriteDisk_keeps hides false) distinct internalId).bind
      intro _ middle same
      have still : (middle.items.map StorageItem.internalId).Nodup := by
        rw [same.ids shows]
        exact distinct
      exact (ih still).mono (fun _ _ later => same.trans later) fun _ _ later => same.trans later

theorem storageSync_view (shows : ShowsId view) (hides : HidesData view)
    (distinct : (store.items.map StorageItem.internalId).Nodup) :
    storageSync.Ends store (fun _ after => SameView view store after) fun _ after => SameView view store after :=
  EStateM.ends_bind_ok (EStateM.get_apply store) (storageSyncLoop_view shows hides _ distinct)

end

theorem name_showsId : ShowsId StorageItem.name := ⟨Prod.fst, fun _ => rfl⟩

/-- A function on one item leaves the list of items as it is. -/
theorem onItem_sameNames {α : Type} {action : ItemM α} (keeps : KeepsName action)
    (distinct : (store.items.map StorageItem.internalId).Nodup) (internalId : Nat) :
    (onItem internalId action).Ends store (fun _ after => SameNames store after)
      fun _ after => SameNames store after := by
  have view : KeepsView StorageItem.name action := fun state =>
    (keeps state).mono (fun _ _ same => Prod.ext same.1 same.2) fun _ _ same => Prod.ext same.1 same.2
  exact (onItem_view name_showsId view distinct internalId).mono (fun _ _ same => same.names) fun _ _ same => same.names

/-- The internal ids are part of the names. -/
theorem Storage.names_ids (store : Storage) : store.names.map Prod.fst = store.items.map StorageItem.internalId := by
  rw [Storage.names, List.map_map]
  rfl

theorem SameNames.ids (same : SameNames store after) (distinct : (store.items.map StorageItem.internalId).Nodup) :
    (after.items.map StorageItem.internalId).Nodup := by
  rw [← Storage.names_ids, same.names, Storage.names_ids]
  exact distinct

theorem storageSync_sameNames (distinct : (store.items.map StorageItem.internalId).Nodup) :
    storageSync.Ends store (fun _ after => SameNames store after) fun _ after => SameNames store after :=
  (storageSync_view name_showsId name_hidesData distinct).mono (fun _ _ same => same.names) fun _ _ same => same.names

theorem storageGetItem_sameNames (key : List UInt8) :
    (storageGetItem key false).Ends store (fun _ after => after = store) fun _ after => after = store := by
  unfold storageGetItem
  apply EStateM.ends_bind_ok (EStateM.get_apply store)
  split
  · exact EStateM.ends_of_ok rfl rfl
  · exact EStateM.ends_of_error rfl rfl

/-- The storage with a new item at the end of its list. -/
structure GrownNames (store after : Storage) (key : List UInt8) : Prop extends SameConfig store after where
  names : after.names = store.names ++ [(store.nextInternalId, some key)]
  next : after.nextInternalId = store.nextInternalId + 1
  room : after.nextInternalId < 2 ^ 63

theorem GrownNames.ids {key : List UInt8} (grown : GrownNames store after key)
    (distinct : (store.items.map StorageItem.internalId).Nodup)
    (below : ∀ item ∈ store.items, item.internalId < store.nextInternalId) :
    (after.items.map StorageItem.internalId).Nodup := by
  rw [← Storage.names_ids, grown.names, List.map_append, Storage.names_ids, List.nodup_append]
  refine ⟨distinct, List.nodup_singleton _, ?_⟩
  rintro internalId present _ single rfl
  obtain ⟨item, member, same⟩ := List.mem_map.mp present
  rw [List.mem_singleton.mp single] at same
  exact absurd (below item member) (by rw [same]; exact Nat.lt_irrefl _)

theorem GrownNames.same {key : List UInt8} {final : Storage} (grown : GrownNames store after key)
    (same : SameNames after final) : GrownNames store final key :=
  ⟨grown.toSameConfig.trans same.toSameConfig, same.names.trans grown.names, same.next.trans grown.next,
    same.next ▸ grown.room⟩

/-- A key that has an item gets no second one. -/
theorem storageGetItem_found {key : List UInt8} (known : ∃ item ∈ store.items, item.key = some key) {internalId : Nat}
    (run : storageGetItem key true store = .ok internalId after) : after = store := by
  unfold storageGetItem at run
  rw [EStateM.bind_ok (EStateM.get_apply store)] at run
  cases found : store.items.find? fun item => item.key = some key with
  | some item =>
      rw [found] at run
      cases run
      rfl
  | none =>
      obtain ⟨item, member, named⟩ := known
      exact absurd named (by simpa using List.find?_eq_none.mp found item member)

theorem onKeyStore_sameNames {α : Type} (action : DiskM α) :
    (onKeyStore action).Ends store (fun _ after => SameNames store after) fun _ after => SameNames store after := by
  constructor
  all_goals
    intro _ _ run
    unfold onKeyStore at run
    split at run <;> cases run
    exact ⟨⟨rfl, rfl⟩, rfl, rfl⟩

theorem onDataStore_sameNames {α : Type} (action : DiskM α) :
    (onDataStore action).Ends store (fun _ after => SameNames store after) fun _ after => SameNames store after := by
  constructor
  all_goals
    intro _ _ run
    unfold onDataStore at run
    split at run <;> cases run
    exact ⟨⟨rfl, rfl⟩, rfl, rfl⟩

/-- The write of the key fills in where it is on disk. -/
theorem storageWriteKeyAndInternalId_sameNames (distinct : (store.items.map StorageItem.internalId).Nodup)
    (key : List UInt8) (internalId : Nat) :
    (resultCode (storageWriteKeyAndInternalId key internalId)).Ends store (fun _ after => SameNames store after)
      fun _ after => SameNames store after := by
  apply resultCode_ends_always
  unfold storageWriteKeyAndInternalId
  split
  · exact EStateM.ends_of_error rfl (.refl store)
  · apply (onKeyStore_sameNames _).bind
    intro offset middle same
    apply (onItem_sameNames _ (same.ids distinct) internalId).mono
    · exact fun _ _ later => same.trans later
    · exact fun _ _ later => same.trans later
    · exact fun _ => EStateM.ends_of_ok rfl ⟨rfl, rfl⟩

theorem of_storageItemNew {key : Option (List UInt8)} {internalId : Nat} {item : StorageItem}
    (run : storageItemNew store key internalId = .ok item) : ∃ data, item = ⟨internalId, key, data, 0, []⟩ := by
  unfold storageItemNew at run
  split at run
  · cases run
    exact ⟨_, rfl⟩
  · cases run
  · cases run

/-- The new item goes behind the others. -/
theorem of_storageInsertItem_item {key : Option (List UInt8)} {internalId : Nat}
    (run : storageInsertItem key internalId store = .ok () after) :
    ∃ data, after = { store with items := store.items ++ [⟨internalId, key, data, 0, []⟩] } := by
  unfold storageInsertItem at run
  rw [EStateM.bind_ok (EStateM.get_apply store)] at run
  cases made : storageItemNew store key internalId with
  | ok item =>
      rw [made] at run
      obtain ⟨data, rfl⟩ := of_storageItemNew made
      cases run
      exact ⟨data, rfl⟩
  | error failure =>
      rw [made] at run
      cases run

theorem of_onDataStore {α : Type} {action : DiskM α} {value : α} (run : onDataStore action store = .ok value after) :
    ∃ disk, after = { store with dataDiskStore := disk } := by
  unfold onDataStore at run
  split at run
  · cases run
    exact ⟨_, rfl⟩
  · cases run

theorem of_storageInsertItem {key : Option (List UInt8)} {internalId : Nat}
    (run : storageInsertItem key internalId store = .ok () after) :
    ∃ item, (item.internalId = internalId ∧ item.key = key) ∧ after = { store with items := store.items ++ [item] } := by
  obtain ⟨data, same⟩ := of_storageInsertItem_item run
  exact ⟨_, ⟨rfl, rfl⟩, same⟩

/-- A key without an item gets one. -/
theorem storageGetItem_grown (distinct : (store.items.map StorageItem.internalId).Nodup)
    (below : ∀ item ∈ store.items, item.internalId < store.nextInternalId) (small : store.nextInternalId < 2 ^ 63)
    {key : List UInt8} (valid : ValidKey key) (absent : ∀ item ∈ store.items, item.key ≠ some key)
    {internalId : Nat} (run : storageGetItem key true store = .ok internalId after) : GrownNames store after key := by
  have missing : store.items.find? (fun item => item.key = some key) = none := by
    rw [List.find?_eq_none]
    intro item member
    simpa using absent item member
  unfold storageGetItem at run
  rw [EStateM.bind_ok (EStateM.get_apply store), missing] at run
  dsimp only at run
  rw [if_pos rfl] at run
  obtain ⟨-, run⟩ := of_require_bind run
  obtain ⟨_, inserted, insert, run⟩ := EStateM.of_bind_ok run
  obtain ⟨notLast, run⟩ := of_require_bind run
  obtain ⟨_, extended, extend, run⟩ := EStateM.of_bind_ok run
  obtain ⟨_, final, wrote, ended⟩ := EStateM.of_bind_ok run
  cases ended
  rw [keyOf_valid valid] at insert
  obtain ⟨item, named, rfl⟩ := of_storageInsertItem insert
  cases extend
  have grown : GrownNames store
      { store with items := store.items ++ [item], nextInternalId := (store.nextInternalId + 1) % 2 ^ 64 } key :=
    { initialTscBufSize := rfl
      retentionSeconds := rfl
      names := by rw [Storage.names, List.map_append, List.map_singleton, named.1, named.2]; rfl
      next := by dsimp only; omega
      room := by dsimp only; omega }
  exact grown.same ((storageWriteKeyAndInternalId_sameNames (grown.ids distinct below) key _).of_ok wrote)

/-- A call of `storage_write` adds an item for a new key, and none for a known one. -/
theorem storageWrite_names (distinct : (store.items.map StorageItem.internalId).Nodup)
    (below : ∀ item ∈ store.items, item.internalId < store.nextInternalId) (small : store.nextInternalId < 2 ^ 63)
    {key : List UInt8} (valid : ValidKey key) {points : List Point} {written : Written}
    (run : storageWrite key points store = .ok written after) :
    ((∃ item ∈ store.items, item.key = some key) → SameNames store after) ∧
      ((∀ item ∈ store.items, item.key ≠ some key) → GrownNames store after key) := by
  obtain ⟨internalId, middle, got, wrote⟩ := EStateM.of_bind_ok run
  constructor
  · intro known
    obtain rfl := storageGetItem_found known got
    exact (onItem_sameNames (storageWriteLoop_keeps name_hidesData points).name distinct internalId).of_ok wrote
  · intro absent
    have grown := storageGetItem_grown distinct below small valid absent got
    exact grown.same ((onItem_sameNames (storageWriteLoop_keeps name_hidesData points).name (grown.ids distinct below)
      internalId).of_ok wrote)

/-- The item leaves the list, and the others stay. -/
theorem storageDeleteItem_names {internalId : Nat} (run : storageDeleteItem internalId store = .ok () after) :
    SameConfig store after ∧ after.nextInternalId = store.nextInternalId ∧
      after.names = store.names.filter fun name => name.1 ≠ internalId := by
  unfold storageDeleteItem at run
  rw [EStateM.bind_ok (EStateM.get_apply store)] at run
  cases found : store.items.find? fun item => item.internalId = internalId with
  | none =>
      rw [found] at run
      cases run
  | some item =>
      rw [found] at run
      obtain ⟨_, _, drop, run⟩ := EStateM.of_bind_ok run
      obtain ⟨_, released, release, run⟩ := EStateM.of_bind_ok run
      obtain ⟨_, _, forget, ended⟩ := EStateM.of_bind_ok run
      cases ended
      cases drop
      have data := (onDataStore_sameNames _).of_ok release
      have key := (resultCode_ends_always (onKeyStore_sameNames _)).of_ok forget
      have same := data.trans key
      refine ⟨⟨same.initialTscBufSize, same.retentionSeconds⟩, same.next, ?_⟩
      rw [same.names, Storage.names, Storage.names, List.filter_map]
      rfl

end

end Menoetius
