import Menoetius.Lib.Mirror
import Menoetius.TheStorageRun

/-
This file shows that a whole storage does what its contents do: the trees, the list and the addresses of the items never
stop a call.
-/

namespace Menoetius
open EStateM

/-- `my_malloc` returns an address that is not in use, if there is one. -/
def Mallocs (choose : Indexes → Nat) : Prop :=
  ∀ indexes : Indexes, (∃ address, indexes.Fresh address) → indexes.Fresh (choose indexes)

/-- The same call on the contents of the storage. -/
def TheStorageOp.contents : TheStorageOp → StorageOp
  | .write key points _ => .write key points
  | .sync => .sync
  | .clean now => .clean now
  | .restart memory _ => .restart memory

/-- The memory of a call comes from `my_malloc`. -/
def TheStorageOp.Mallocs : TheStorageOp → Prop
  | .write _ _ choose => Menoetius.Mallocs choose
  | .restart _ choose => Menoetius.Mallocs choose
  | _ => True

section
variable {indexes : Indexes} {items placeholders : List IndexItem}

/-- There is an address for one more item. -/
theorem Indexes.Consistent.exists_fresh (consistent : indexes.Consistent items placeholders)
    (few : (items ++ placeholders).length < 2 ^ 64 - 1) : ∃ address, indexes.Fresh address := by
  have used : ((items ++ placeholders).map IndexItem.address).toFinset.card < (Finset.Ico 1 (2 ^ 64)).card := by
    rw [Nat.card_Ico]
    refine lt_of_le_of_lt (List.toFinset_card_le _) ?_
    rwa [List.length_map]
  obtain ⟨address, inside, free⟩ := Finset.exists_mem_notMem_of_card_lt_card used
  refine ⟨address, Finset.mem_Ico.mp inside, fun item mem same => free ?_⟩
  rw [← same]
  exact List.mem_toFinset.mpr (List.mem_map_of_mem (consistent.mem_of_tree consistent.zero_lt mem))

/-- Without the checks of a debug build every key can be searched for a label. -/
theorem getKeyValue_release (lfm : List UInt8) (lfmLen : Nat) (key : CString) :
    ∃ value, getKeyValue false lfm lfmLen key = .ok value := by
  suffices loop : ∀ fuel index left found lfm, ∃ value, getKeyValueLoop false key fuel index left found lfm = .ok value from
    loop lfmLen 0 lfmLen false lfm
  intro fuel
  induction fuel with
  | zero => exact fun _ _ _ _ => ⟨none, rfl⟩
  | succ fuel ih =>
      intro index left found lfm
      rw [getKeyValueLoop]
      split
      · exact ⟨none, rfl⟩
      · split
        · exact ⟨_, rfl⟩
        · exact ih _ _ _ _

theorem mapM_release (bytes : List UInt8) (n : Nat) (names : List CString) :
    ∃ values, names.mapM (getKeyValue false bytes n) = .ok values := by
  induction names with
  | nil => exact ⟨[], rfl⟩
  | cons name rest ih =>
      obtain ⟨value, found⟩ := getKeyValue_release bytes n name
      obtain ⟨values, others⟩ := ih
      exact ⟨value :: values, by rw [List.mapM_cons, found, Except.ok_bind, others]; rfl⟩

end

section
variable {store : TheStorage} {items : List IndexItem} {choose : Indexes → Nat}

theorem newAddress_run (mallocs : Mallocs choose) (room : ∃ address, store.indexes.Fresh address) :
    TheStorage.newAddress choose store = .ok (choose store.indexes) store := by
  rw [TheStorage.newAddress, bind_ok (get_apply store), require_bind (mallocs _ room)]
  rfl

theorem mirrors_onStorage {α : Type} (action : StorageM α) :
    Mirrors TheStorage.storage (TheStorage.onStorage action) action store fun value result after =>
      value = result ∧ action store.storage = .ok result after.storage ∧ after = { store with storage := after.storage } := by
  cases run : action store.storage with
  | ok value storage =>
      have done : TheStorage.onStorage action store = .ok value { store with storage } := by
        simp only [TheStorage.onStorage, run]
      exact .returns done run ⟨rfl, rfl, rfl⟩
  | error failure storage =>
      have failed : TheStorage.onStorage action store = .error failure { store with storage } := by
        simp only [TheStorage.onStorage, run]
      exact .stops failed run

/-- Internal ids are below `INT64_MAX`, so there are fewer items than addresses. -/
theorem TheStorage.Holds.exists_fresh (holds : store.Holds items) : ∃ address, store.indexes.Fresh address := by
  have inside : (items.map IndexItem.internalId).toFinset ⊆ Finset.range (2 ^ 63) := by
    intro internalId mem
    obtain ⟨item, there, rfl⟩ := List.mem_map.mp (List.mem_toFinset.mp mem)
    exact Finset.mem_range.mpr ((holds.below item there).trans holds.small)
  have count := Finset.card_le_card inside
  rw [List.toFinset_card_of_nodup holds.ids, List.length_map, Finset.card_range] at count
  refine holds.consistent.exists_fresh ?_
  rw [List.append_nil]
  omega

/-- The item is found in both views, or made in both. -/
theorem storageWrite_mirrors (holds : store.Holds items) (keys : (store.storage.items.map StorageItem.key).Nodup)
    (release : store.indexes.debugBuild = false) {key : List UInt8} (valid : ValidKey key) (points : List Point)
    (mallocs : Mallocs choose) :
    Mirrors TheStorage.storage (TheStorageOp.write key points choose).run (StorageOp.write key points).run store
      fun _ _ _ => True := by
  refine mirrors_bind_left (newAddress_run mallocs holds.exists_fresh) rfl ?_
  have same := TheStorage.storageWrite_eq holds keys valid (mallocs _ holds.exists_fresh) points
  cases wrote : storageWrite key points store.storage with
  | error failure storage =>
      have failed : ∀ indexes : Indexes, TheStorage.onStorage (storageWrite key points) { store with indexes } =
          .error failure ⟨storage, indexes⟩ := by
        intro indexes
        simp only [TheStorage.onStorage, wrote]
      cases got : store.indexes.storageGetItem key true (choose store.indexes) with
      | error other =>
          have stopped : TheStorage.onIndexes (fun indexes => indexes.storageGetItem key true (choose store.indexes))
              store = .error other store := by simp only [TheStorage.onIndexes, got]
          exact .stops (bind_error (same.trans (bind_error stopped _)) _) wrote
      | ok result =>
          have found : TheStorage.onIndexes (fun indexes => indexes.storageGetItem key true (choose store.indexes))
              store = .ok result.1 { store with indexes := result.2 } := by simp only [TheStorage.onIndexes, got]
          exact .stops (bind_error (same.trans ((bind_ok found _).trans (failed _))) _) wrote
  | ok written storage =>
      have got : ∃ result, store.indexes.storageGetItem key true (choose store.indexes) = .ok result := by
        rcases holds.consistent.findKey_cases key with ⟨item, _, found, _⟩ | ⟨_, absent⟩
        · rw [Indexes.storageGetItem, found]
          exact ⟨_, rfl⟩
        · have grown := (storageWrite_names holds.storageDistinct holds.storageBelow holds.small valid wrote).2 (by
            intro item member named
            obtain ⟨other, there, same⟩ := holds.known_iff.mp ⟨item, member, named⟩
            exact absent other there same)
          have room := grown.room
          rw [grown.next, ← holds.next] at room
          obtain ⟨values, read⟩ := mapM_release (key ++ [0]) key.length store.indexes.indices
          rw [← release] at read
          obtain ⟨after, made⟩ := Indexes.storageGetItem_new holds.consistent valid absent read (by omega)
            (choose store.indexes)
          exact ⟨_, made⟩
      obtain ⟨result, got⟩ := got
      have found : TheStorage.onIndexes (fun indexes => indexes.storageGetItem key true (choose store.indexes)) store =
          .ok result.1 { store with indexes := result.2 } := by simp only [TheStorage.onIndexes, got]
      have stored : TheStorage.onStorage (storageWrite key points) { store with indexes := result.2 } =
          .ok written ⟨storage, result.2⟩ := by simp only [TheStorage.onStorage, wrote]
      have run : (TheStorage.storageWrite key points (choose store.indexes)) store = .ok written ⟨storage, result.2⟩ :=
        same.trans ((bind_ok found _).trans stored)
      have ended := bind_ok run fun _ => (pure () : TheStorageM Unit)
      exact .returns ended wrote trivial

theorem storageSync_mirrors (store : TheStorage) :
    Mirrors TheStorage.storage TheStorageOp.sync.run StorageOp.sync.run store fun _ _ _ => True := by
  cases synced : storageSync store.storage with
  | ok value storage =>
      have done : TheStorage.storageSync store = .ok value { store with storage } := by
        simp only [TheStorage.storageSync, TheStorage.onStorage, synced]
      have run : TheStorageOp.sync.run store = .ok () { store with storage } := by
        simp only [TheStorageOp.run, ignoreCode, done]
      exact .returns run (bind_ok (resultCode_ok synced) _) trivial
  | error failure storage =>
      have failed : TheStorage.storageSync store = .error failure { store with storage } := by
        simp only [TheStorage.storageSync, TheStorage.onStorage, synced]
      cases failure with
      | code err =>
          have run : TheStorageOp.sync.run store = .ok () { store with storage } := by
            simp only [TheStorageOp.run, ignoreCode, failed]
          exact .returns run (bind_ok (resultCode_code synced) _) trivial
      | abort site =>
          have run : TheStorageOp.sync.run store = .error (.abort site) { store with storage } := by
            simp only [TheStorageOp.run, ignoreCode, failed]
          have stopped : resultCode storageSync store.storage = .error (.abort site) storage := by
            rw [resultCode, synced]
          exact .stops run (bind_error stopped _)

/-- An item that is in the list can always leave it. -/
theorem storageDeleteItem_mirrors {front rest : List IndexItem} {item : IndexItem}
    (holds : store.Holds (front ++ item :: rest)) :
    Mirrors TheStorage.storage (TheStorage.storageDeleteItem item) (storageDeleteItem item.internalId) store
      fun _ _ _ => True := by
  obtain ⟨indexes, deleted, _⟩ := Indexes.storageDeleteItem_run holds.consistent
  have unlinked : TheStorage.onIndexes (fun indexes => do
      let after ← indexes.storageDeleteItem item
      pure ((), after)) store = .ok () { store with indexes } := by
    simp only [TheStorage.onIndexes, deleted, Except.ok_bind]
    rfl
  refine mirrors_bind_left (get_apply store) rfl (mirrors_bind_left unlinked rfl ?_)
  have released := @mirrors_onStorage { store with indexes } _ (storageDeleteItem item.internalId)
  cases released with
  | returns run same _ => exact .returns ((bind_ok run _).trans rfl) same trivial
  | stops run same => exact .stops (bind_error run _) same

/-- What the loop of the cleaner does with an item. -/
theorem cleanLoop_cons (t : Int) (internalId : Nat) (rest : List Nat) :
    cleanLoop t (internalId :: rest) = (do
      let shouldDelete ← onItem internalId (storageTrimAndWriteToDisk t)
      if shouldDelete then storageDeleteItem internalId) >>= fun _ => cleanLoop t rest := by
  rw [cleanLoop, bind_assoc]
  congr 1
  funext shouldDelete
  cases shouldDelete <;> rfl

theorem cleanItem_mirrors {front rest : List IndexItem} {item : IndexItem} (holds : store.Holds (front ++ item :: rest))
    (t : Int) : Mirrors TheStorage.storage (TheStorage.cleanItem t item) (do
      let shouldDelete ← onItem item.internalId (storageTrimAndWriteToDisk t)
      if shouldDelete then storageDeleteItem item.internalId) store
      fun next _ after => next = rest.head? ∧ ∃ kept, after.Holds (kept ++ rest) := by
  have mirrors : Mirrors TheStorage.storage (TheStorage.cleanItem t item) (do
      let shouldDelete ← onItem item.internalId (storageTrimAndWriteToDisk t)
      if shouldDelete then storageDeleteItem item.internalId) store fun _ _ _ => True := by
    refine (mirrors_onStorage (onItem item.internalId (storageTrimAndWriteToDisk t))).bind ?_
    rintro shouldDelete _ after ⟨rfl, trimmed, frame⟩
    have same := (onItem_sameNames (storageTrimAndWriteToDisk_keeps name_hidesData t).name holds.storageDistinct _).of_ok
      trimmed
    have still : after.Holds (front ++ item :: rest) := frame ▸ holds.withStorage same
    cases shouldDelete with
    | true => exact storageDeleteItem_mirrors still
    | false => exact .returns (bind_ok (get_apply after) _) rfl trivial
  refine mirrors.of_run ?_
  intro next _ after run _
  obtain ⟨saved, _, _, kept, _, still⟩ := cleanItem_holds holds run
  exact ⟨saved, kept, still⟩

/-- The cleaner passes the items of the list in the order of the contents. -/
theorem cleanItemsLoop_mirrors (t : Int) (rounds : Nat) :
    ∀ {store : TheStorage} {front ahead : List IndexItem}, store.Holds (front ++ ahead) → ahead.length ≤ rounds →
      Mirrors TheStorage.storage (TheStorage.cleanItemsLoop t rounds ahead.head?)
        (cleanLoop t (ahead.map IndexItem.internalId)) store fun _ _ _ => True := by
  induction rounds with
  | zero =>
      intro store front ahead holds enough
      obtain rfl := List.eq_nil_of_length_eq_zero (Nat.le_zero.mp enough)
      exact .returns rfl rfl trivial
  | succ rounds ih =>
      intro store front ahead holds enough
      cases ahead with
      | nil => exact .returns rfl rfl trivial
      | cons item rest =>
          rw [List.map_cons, cleanLoop_cons]
          refine (cleanItem_mirrors holds t).bind ?_
          rintro _ _ after ⟨rfl, kept, still⟩
          exact ih still (Nat.le_of_succ_le_succ enough)

theorem cleanItems_mirrors (holds : store.Holds items) (now : Int) :
    Mirrors TheStorage.storage (TheStorageOp.clean now).run (StorageOp.clean now).run store fun _ _ _ => True := by
  have list : store.storage.list = items.map IndexItem.internalId := by
    have named : ∀ item ∈ store.storage.items, item.key.isSome = true := by
      intro item member
      have there := List.mem_map_of_mem (f := StorageItem.key) member
      rw [holds.storageKeys] at there
      obtain ⟨other, present, same⟩ := List.mem_map.mp there
      rw [← same, (holds.consistent.keyBytes present).1]
      rfl
    rw [Storage.list, List.filter_eq_self.mpr named, holds.storageIds]
  have loop : Mirrors TheStorage.storage (TheStorage.cleanItems now) (cleanItems now) store fun _ _ _ => True := by
    have start := @cleanItemsLoop_mirrors (now - store.storage.retentionSeconds) items.length store [] items holds le_rfl
    rw [← list, ← holds.consistent.list.first] at start
    refine mirrors_bind_left (get_apply store) rfl (mirrors_bind_right (get_apply store.storage) ?_)
    rw [holds.consistent.listItems]
    exact start
  exact loop.pure_right _

end

end Menoetius
