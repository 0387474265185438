import Menoetius.CleanerNames
import Menoetius.StorageIndexed

/-
This file states how the list of a storage goes with its items, and that the calls of the clients keep it so. They
only add items at the end of the list.
-/

namespace Menoetius
open LinkedList

def IndexItem.name (item : IndexItem) : Nat × Option (List UInt8) := (item.internalId, item.key)

/-- The list and the trees hold the items of the storage, in this order. New internal ids are larger than the ones in
use. -/
structure TheStorage.Holds (store : TheStorage) (items : List IndexItem) : Prop where
  consistent : store.indexes.Consistent items []
  names : items.map IndexItem.name = store.storage.names
  next : store.indexes.nextInternalId = store.storage.nextInternalId
  ids : (items.map IndexItem.internalId).Nodup
  below : ∀ item ∈ items, item.internalId < store.storage.nextInternalId
  small : store.storage.nextInternalId < 2 ^ 63

section
variable {store after : TheStorage} {items : List IndexItem} {key : List UInt8}

theorem TheStorage.Holds.storageIds (holds : store.Holds items) :
    store.storage.items.map StorageItem.internalId = items.map IndexItem.internalId := by
  rw [← Storage.names_ids, ← holds.names, List.map_map]
  rfl

theorem TheStorage.Holds.storageKeys (holds : store.Holds items) :
    store.storage.items.map StorageItem.key = items.map IndexItem.key := by
  have names := congrArg (List.map Prod.snd) holds.names
  rw [Storage.names, List.map_map, List.map_map] at names
  exact names.symm

theorem TheStorage.Holds.storageDistinct (holds : store.Holds items) :
    (store.storage.items.map StorageItem.internalId).Nodup := by
  rw [holds.storageIds]
  exact holds.ids

theorem TheStorage.Holds.storageBelow (holds : store.Holds items) :
    ∀ item ∈ store.storage.items, item.internalId < store.storage.nextInternalId := by
  intro item member
  have there := List.mem_map_of_mem (f := StorageItem.internalId) member
  rw [holds.storageIds] at there
  obtain ⟨other, present, same⟩ := List.mem_map.mp there
  rw [← same]
  exact holds.below other present

theorem TheStorage.Holds.known_iff (holds : store.Holds items) :
    (∃ item ∈ store.storage.items, item.key = some key) ↔ ∃ item ∈ items, item.key = some key := by
  rw [← List.mem_map, holds.storageKeys, List.mem_map]

theorem TheStorage.Holds.unknown (holds : store.Holds items) (absent : ∀ item ∈ items, item.key ≠ some key) :
    ∀ item ∈ store.storage.items, item.key ≠ some key := by
  intro item member named
  obtain ⟨other, there, equal⟩ := holds.known_iff.mp ⟨item, member, named⟩
  exact absent other there equal

/-- Nothing else of the storage matters for its list. -/
theorem TheStorage.Holds.withStorage (holds : store.Holds items) {storage : Storage}
    (same : SameNames store.storage storage) : TheStorage.Holds { store with storage } items where
  consistent := holds.consistent
  names := holds.names.trans same.names.symm
  next := holds.next.trans same.next.symm
  ids := holds.ids
  below := by rw [same.next]; exact holds.below
  small := by rw [same.next]; exact holds.small

/-- What a call of a client leaves: the same list, or one with a new item at its end. -/
structure ListGrows (store after : TheStorage) (items : List IndexItem) : Prop where
  config : SameConfig store.storage after.storage
  next : store.storage.nextInternalId ≤ after.storage.nextInternalId
  list : after.Holds items ∨
    ∃ item, item.internalId = store.storage.nextInternalId ∧ after.Holds (items ++ [item])

theorem ListGrows.of_sameNames (holds : store.Holds items) {storage : Storage}
    (same : SameNames store.storage storage) : ListGrows store { store with storage } items :=
  ⟨same.toSameConfig, same.next.ge, Or.inl (holds.withStorage same)⟩

/-- What holds after every end of a call. -/
theorem ignoreCode_ok {α : Type} {action : TheStorageM α} {post : TheStorage → Prop}
    (ends : action.Ends store (fun _ after => post after) fun _ after => post after)
    (run : ignoreCode action store = .ok () after) : post after := by
  unfold ignoreCode at run
  split at run
  · rename_i done
    cases run
    exact ends.of_ok done
  · rename_i failed
    cases run
    exact ends.of_error failed
  · cases run

theorem onStorage_ends {α : Type} {action : StorageM α} {post : Storage → Prop}
    (ends : action.Ends store.storage (fun _ after => post after) fun _ after => post after) :
    (TheStorage.onStorage action).Ends store
      (fun _ after => ∃ storage, after = { store with storage } ∧ post storage)
      fun _ after => ∃ storage, after = { store with storage } ∧ post storage := by
  cases run : action store.storage with
  | ok value storage =>
      have done : TheStorage.onStorage action store = .ok value { store with storage } := by
        simp only [TheStorage.onStorage, run]
      exact EStateM.ends_of_ok done ⟨storage, rfl, ends.of_ok run⟩
  | error failure storage =>
      have failed : TheStorage.onStorage action store = .error failure { store with storage } := by
        simp only [TheStorage.onStorage, run]
      exact EStateM.ends_of_error failed ⟨storage, rfl, ends.of_error run⟩

theorem of_onStorage {α : Type} {action : StorageM α} {value : α}
    (run : TheStorage.onStorage action store = .ok value after) :
    ∃ storage, action store.storage = .ok value storage ∧ after = { store with storage } := by
  unfold TheStorage.onStorage at run
  split at run
  · rename_i done
    cases run
    exact ⟨_, done, rfl⟩
  · cases run

theorem of_onIndexes {α : Type} {change : Indexes → Except Failure (α × Indexes)} {value : α}
    (run : TheStorage.onIndexes change store = .ok value after) :
    ∃ indexes, change store.indexes = .ok (value, indexes) ∧ after = { store with indexes } := by
  unfold TheStorage.onIndexes at run
  split at run
  · rename_i done
    cases run
    exact ⟨_, done, rfl⟩
  · cases run

/-- A look into the trees and the list. -/
theorem ignoreCode_look {α : Type} {look : TheStorage → Except Failure α}
    (run : ignoreCode (do let store ← get; ofExcept (look store)) store = .ok () after) : after = store := by
  apply ignoreCode_ok _ run
  apply EStateM.ends_bind_ok (EStateM.get_apply store)
  cases look store with
  | ok value => exact EStateM.ends_of_ok rfl rfl
  | error failure => exact EStateM.ends_of_error rfl rfl

/-- A new item in both views. -/
theorem TheStorage.Holds.grow (holds : store.Holds items) {storage : Storage} {indexes : Indexes} {item : IndexItem}
    (grown : GrownNames store.storage storage key) (consistent : indexes.Consistent (items ++ [item]) [])
    (named : item.key = some key) (numbered : item.internalId = store.storage.nextInternalId)
    (next : indexes.nextInternalId = (store.storage.nextInternalId + 1) % 2 ^ 64) :
    TheStorage.Holds ⟨storage, indexes⟩ (items ++ [item]) := by
  have room := grown.room
  have last := grown.next
  refine
    { consistent
      names := ?_
      next := ?_
      ids := ?_
      below := ?_
      small := room }
  · rw [List.map_append, holds.names, grown.names, List.map_singleton, IndexItem.name, named, numbered]
  · dsimp only
    omega
  · rw [List.map_append, List.nodup_append]
    refine ⟨holds.ids, List.nodup_singleton _, ?_⟩
    rintro internalId present _ single rfl
    obtain ⟨other, member, same⟩ := List.mem_map.mp present
    have below := holds.below other member
    rw [same, List.mem_singleton.mp single, numbered] at below
    exact absurd below (Nat.lt_irrefl _)
  · intro other present
    dsimp only
    rcases List.mem_append.mp present with old | single
    · have below := holds.below other old
      omega
    · rw [List.mem_singleton.mp single, numbered]
      omega

section
variable {item : IndexItem}

/-- The item that a tree finds is the item of a key. -/
theorem TheStorage.storageGetItem_inTree (found : store.indexes.findKey key = some item) (insert : Bool) (address : Nat) :
    TheStorage.storageGetItem key insert address store = .ok item store := by
  rw [TheStorage.storageGetItem, EStateM.bind_ok (EStateM.get_apply store), found]
  rfl

theorem TheStorage.storageWrite_found (found : store.indexes.findKey key = some item) (points : List Point)
    (address : Nat) : TheStorage.storageWrite key points address store =
      TheStorage.onStorage (onItem item.internalId (storageWriteLoop points)) store :=
  EStateM.bind_ok (TheStorage.storageGetItem_inTree found true address) _

theorem TheStorage.storageGet_found (found : store.indexes.findKey key = some item) (maxNumPts : Nat) :
    TheStorage.storageGet key maxNumPts store =
      TheStorage.onStorage (onItem item.internalId (storageGetAll item.internalId maxNumPts)) store :=
  EStateM.bind_ok (TheStorage.storageGetItem_inTree found false 0) _

/-- A key that no tree has is not read. -/
theorem TheStorage.storageGet_missing (missing : store.indexes.findKey key = none) (maxNumPts : Nat) :
    TheStorage.storageGet key maxNumPts store = .error (.code .lookupFailed) store := by
  have refused : TheStorage.onIndexes (fun indexes => indexes.storageGetItem key false 0) store =
      .error (.code .lookupFailed) store := by
    rw [TheStorage.onIndexes, Indexes.storageGetItem, missing]
    rfl
  have got : TheStorage.storageGetItem key false 0 store = .error (.code .lookupFailed) store := by
    rw [TheStorage.storageGetItem, EStateM.bind_ok (EStateM.get_apply store), missing]
    exact EStateM.bind_error refused _
  exact EStateM.bind_error got _

/-- For a key that no tree has, a write makes an item in the trees and in the list, and its contents. -/
theorem TheStorage.storageWrite_missing (missing : store.indexes.findKey key = none) (points : List Point)
    (address : Nat) : TheStorage.storageWrite key points address store = (do
      let item ← TheStorage.onIndexes fun indexes => indexes.storageGetItem key true address
      let _ ← TheStorage.onStorage (Menoetius.storageGetItem key true)
      TheStorage.onStorage (onItem item.internalId (storageWriteLoop points))) store := by
  unfold TheStorage.storageWrite TheStorage.storageGetItem
  rw [bind_assoc, EStateM.bind_ok (EStateM.get_apply store), missing]
  simp only [bind_assoc, pure_bind]

end

/-- Both views of a write find the key, or both add an item. -/
theorem storageWrite_grows (holds : store.Holds items) (valid : ValidKey key) {address : Nat}
    (fresh : store.indexes.Fresh address) {points : List Point} {written : Written}
    (run : TheStorage.storageWrite key points address store = .ok written after) : ListGrows store after items := by
  have keeps := @storageWriteLoop_keeps _ _ name_hidesData points
  rcases holds.consistent.findKey_cases key with ⟨item, _, known, _⟩ | ⟨missing, absent⟩
  · rw [TheStorage.storageWrite_found known] at run
    obtain ⟨storage, stored, rfl⟩ := of_onStorage run
    exact .of_sameNames holds ((onItem_sameNames keeps.name holds.storageDistinct _).of_ok stored)
  · rw [TheStorage.storageWrite_missing missing] at run
    obtain ⟨item, _, got, run⟩ := EStateM.of_bind_ok run
    obtain ⟨indexes, found, rfl⟩ := of_onIndexes got
    obtain ⟨internalId, _, make, run⟩ := EStateM.of_bind_ok run
    obtain ⟨middle, made, rfl⟩ := of_onStorage make
    obtain ⟨storage, stored, rfl⟩ := of_onStorage run
    have larger := storageGetItem_grown holds.storageDistinct holds.storageBelow holds.small valid (holds.unknown absent)
      made
    have distinct := larger.ids holds.storageDistinct holds.storageBelow
    have grown := larger.same ((onItem_sameNames keeps.name distinct _).of_ok stored)
    rcases Indexes.storageGetItem_keeps holds.consistent valid fresh found with
      ⟨_, present⟩ | ⟨_, consistent, named, numbered, _, next, _⟩
    · rw [missing] at present
      cases present
    · rw [holds.next] at numbered next
      exact ⟨grown.toSameConfig, grown.next ▸ Nat.le_succ _,
        Or.inr ⟨item, numbered, holds.grow grown consistent named numbered next⟩⟩

/-- A read changes no name. -/
theorem storageGet_sameNames (distinct : (store.storage.items.map StorageItem.internalId).Nodup) (key : List UInt8)
    (maxNumPts : Nat) :
    (TheStorage.storageGet key maxNumPts).Ends store
      (fun _ after => ∃ storage, after = { store with storage } ∧ SameNames store.storage storage)
      fun _ after => ∃ storage, after = { store with storage } ∧ SameNames store.storage storage := by
  cases found : store.indexes.findKey key with
  | none => exact EStateM.ends_of_error (TheStorage.storageGet_missing found maxNumPts) ⟨store.storage, rfl, .refl _⟩
  | some item =>
      exact EStateM.ends_of_eq (TheStorage.storageGet_found found maxNumPts)
        (onStorage_ends (onItem_sameNames (storageGetAll_keeps _ maxNumPts).name distinct _))

/-- A call of a client keeps the list, or adds one item at its end. -/
theorem ClientCall.run_grows (holds : store.Holds items) (call : ClientCall) (valid : call.Valid store)
    (run : call.run store = .ok () after) : ListGrows store after items := by
  cases call with
  | write key points address =>
      obtain ⟨written, _, wrote, ended⟩ := EStateM.of_bind_ok run
      cases ended
      exact storageWrite_grows holds valid.1 valid.2 wrote
  | get key maxNumPts =>
      obtain ⟨storage, rfl, same⟩ :=
        ignoreCode_ok (storageGet_sameNames holds.storageDistinct key maxNumPts) run
      exact .of_sameNames holds same
  | lookup indexNum labelValue extraMatchers numExtraMatchers maxResultsSize offset limit =>
      obtain rfl := ignoreCode_look run
      exact .of_sameNames holds (.refl _)
  | lookupWithoutIndex matchers numMatchers maxResultsSize lastInternalId limit =>
      obtain rfl := ignoreCode_look run
      exact .of_sameNames holds (.refl _)
  | sync =>
      obtain ⟨storage, rfl, same⟩ := ignoreCode_ok (onStorage_ends (storageSync_sameNames holds.storageDistinct)) run
      exact .of_sameNames holds same

/-- The contents of a new item have the next internal id. -/
theorem storageGetItem_numbered {store after : Storage} (unknown : ∀ item ∈ store.items, item.key ≠ some key)
    {internalId : Nat} (run : storageGetItem key true store = .ok internalId after) :
    internalId = store.nextInternalId := by
  have missing : store.items.find? (fun item => item.key = some key) = none := by
    rw [List.find?_eq_none]
    intro item member
    simpa using unknown item member
  unfold storageGetItem at run
  rw [EStateM.bind_ok (EStateM.get_apply store), missing] at run
  dsimp only at run
  rw [if_pos rfl] at run
  obtain ⟨-, run⟩ := of_require_bind run
  obtain ⟨_, _, _, run⟩ := EStateM.of_bind_ok run
  obtain ⟨-, run⟩ := of_require_bind run
  obtain ⟨_, _, _, run⟩ := EStateM.of_bind_ok run
  obtain ⟨_, _, _, ended⟩ := EStateM.of_bind_ok run
  cases ended
  rfl

/-- The contents of an item that a tree has are those of its key. -/
theorem TheStorage.Holds.storageGetItem_known (holds : store.Holds items)
    (keys : (store.storage.items.map StorageItem.key).Nodup) {item : IndexItem} (member : item ∈ items)
    (named : item.key = some key) (insert : Bool) :
    Menoetius.storageGetItem key insert store.storage = .ok item.internalId store.storage := by
  have there : item.name ∈ store.storage.names := by
    rw [← holds.names]
    exact List.mem_map_of_mem member
  obtain ⟨other, present, same⟩ := List.mem_map.mp there
  obtain ⟨number, key⟩ := Prod.ext_iff.mp same
  rw [storageGetItem_present keys present (key.trans named)]
  exact congrArg (EStateM.Result.ok · store.storage) number

/-- A write goes to the contents of the key, whichever view its item is found in. -/
theorem TheStorage.storageWrite_eq (holds : store.Holds items) (keys : (store.storage.items.map StorageItem.key).Nodup)
    (valid : ValidKey key) {address : Nat} (fresh : store.indexes.Fresh address) (points : List Point) :
    TheStorage.storageWrite key points address store = (do
      let _ ← TheStorage.onIndexes fun indexes => indexes.storageGetItem key true address
      TheStorage.onStorage (Menoetius.storageWrite key points)) store := by
  rcases holds.consistent.findKey_cases key with ⟨item, member, known, named⟩ | ⟨missing, absent⟩
  · have got : TheStorage.onIndexes (fun indexes => indexes.storageGetItem key true address) store = .ok item store := by
      rw [TheStorage.onIndexes, Indexes.storageGetItem, known]
      rfl
    rw [TheStorage.storageWrite_found known, EStateM.bind_ok got, TheStorage.onStorage, TheStorage.onStorage,
      Menoetius.storageWrite, EStateM.bind_ok (holds.storageGetItem_known keys member named true)]
  · rw [TheStorage.storageWrite_missing missing]
    cases got : TheStorage.onIndexes (fun indexes => indexes.storageGetItem key true address) store with
    | error failure middle => rw [EStateM.bind_error got, EStateM.bind_error got]
    | ok item middle =>
        obtain ⟨indexes, found, rfl⟩ := of_onIndexes got
        rw [EStateM.bind_ok got, EStateM.bind_ok got]
        cases made : Menoetius.storageGetItem key true store.storage with
        | error failure storage =>
            have failed : TheStorage.onStorage (Menoetius.storageGetItem key true) ⟨store.storage, indexes⟩ =
                .error failure ⟨storage, indexes⟩ := by rw [TheStorage.onStorage, made]
            rw [EStateM.bind_error failed, TheStorage.onStorage, Menoetius.storageWrite, EStateM.bind_error made]
        | ok internalId storage =>
            have done : TheStorage.onStorage (Menoetius.storageGetItem key true) ⟨store.storage, indexes⟩ =
                .ok internalId ⟨storage, indexes⟩ := by rw [TheStorage.onStorage, made]
            have numbered : item.internalId = internalId := by
              rw [storageGetItem_numbered (holds.unknown absent) made, ← holds.next]
              rcases Indexes.storageGetItem_keeps holds.consistent valid fresh found with
                ⟨_, present⟩ | ⟨_, _, _, numbered, _⟩
              · rw [missing] at present
                cases present
              · exact numbered
            rw [EStateM.bind_ok done, TheStorage.onStorage, TheStorage.onStorage, Menoetius.storageWrite,
              EStateM.bind_ok made, numbered]

/-- A read returns the points of the key, whichever view its item is found in. -/
theorem TheStorage.storageGet_eq (holds : store.Holds items) (keys : (store.storage.items.map StorageItem.key).Nodup)
    (maxNumPts : Nat) :
    TheStorage.storageGet key maxNumPts store = TheStorage.onStorage (Menoetius.storageGet key maxNumPts) store := by
  rcases holds.consistent.findKey_cases key with ⟨item, member, known, named⟩ | ⟨missing, absent⟩
  · rw [TheStorage.storageGet_found known, TheStorage.onStorage, TheStorage.onStorage, Menoetius.storageGet,
      EStateM.bind_ok (holds.storageGetItem_known keys member named false)]
  · rw [TheStorage.storageGet_missing missing, TheStorage.onStorage, Menoetius.storageGet,
      EStateM.bind_error (storageGetItem_absent (holds.unknown absent))]

end

end Menoetius
