import Menoetius.CleanerNames
import Menoetius.StorageClean

/-
This file shows that the key store goes with the items of a storage, whatever the points and their blocks are.
-/

namespace Menoetius

theorem place_showsId : ShowsId StorageItem.place := ⟨Prod.fst, fun _ => rfl⟩

theorem place_hidesData : HidesData StorageItem.place := fun _ _ _ => rfl

theorem SameView.placeNames {store after : Storage} (same : SameView StorageItem.place store after) :
    SameNames store after := by
  apply SameView.names ⟨?_, same.rest⟩
  have names := congrArg (List.map fun place => (place.1, place.2.1)) same.items
  rwa [List.map_map, List.map_map] at names

section
variable {store after : Storage} {keyBlocks : List Block} {key : List UInt8}

theorem KeysHold.view (holds : KeysHold store keyBlocks) (same : SameView StorageItem.place store after) :
    KeysHold after keyBlocks := by
  have rest := same.rest
  apply holds.same same.items <;> rw [rest]

/-- A key without an item gets one, and a block in the key store. -/
theorem storageGetItem_keys (holds : KeysHold store keyBlocks) (valid : ValidKey key) {internalId : Nat}
    (run : storageGetItem key true store = .ok internalId after) : ∃ later, KeysHold after later := by
  unfold storageGetItem at run
  rw [EStateM.bind_ok (EStateM.get_apply store)] at run
  cases found : store.items.find? fun item => item.key = some key with
  | some item =>
      rw [found] at run
      cases run
      exact ⟨keyBlocks, holds⟩
  | none =>
      have unknown : ∀ item ∈ store.items, item.key ≠ some key := by
        intro item member
        simpa using List.find?_eq_none.mp found item member
      rw [found] at run
      dsimp only at run
      rw [if_pos rfl] at run
      obtain ⟨-, run⟩ := of_require_bind run
      obtain ⟨_, inserted, insert, run⟩ := EStateM.of_bind_ok run
      obtain ⟨notLast, run⟩ := of_require_bind run
      obtain ⟨_, extended, extend, run⟩ := EStateM.of_bind_ok run
      obtain ⟨_, final, wrote, ended⟩ := EStateM.of_bind_ok run
      cases ended
      rw [keyOf_valid valid] at insert
      obtain ⟨data, rfl⟩ := of_storageInsertItem_item insert
      cases extend
      have small := holds.next
      have next : (store.nextInternalId + 1) % 2 ^ 64 = store.nextInternalId + 1 := Nat.mod_eq_of_lt (by omega)
      have written := @storageWriteKeyAndInternalId_ends store keyBlocks holds key valid data
        { store with
          items := store.items ++ [⟨store.nextInternalId, some key, data, 0, []⟩]
          nextInternalId := (store.nextInternalId + 1) % 2 ^ 64 } rfl rfl
      obtain ⟨offset, disk, later, added, rfl⟩ :=
        (resultCode_ends_abort written fun _ _ full => full.aborts).of_ok wrote
      refine ⟨later, ?_⟩
      rw [next]
      exact @KeysHold.withNew store keyBlocks later holds key valid unknown data offset disk added (by omega)

theorem storageWrite_keys (holds : KeysHold store keyBlocks) (valid : ValidKey key) {points : List Point}
    {written : Written} (run : storageWrite key points store = .ok written after) : ∃ later, KeysHold after later := by
  obtain ⟨internalId, middle, got, wrote⟩ := EStateM.of_bind_ok run
  obtain ⟨later, kept⟩ := storageGetItem_keys holds valid got
  exact ⟨later, kept.view ((onItem_view place_showsId (storageWriteLoop_keeps place_hidesData points) kept.ids
    internalId).of_ok wrote)⟩

/-- An item that is deleted releases its key. -/
theorem storageDeleteItem_keys (holds : KeysHold store keyBlocks) {internalId : Nat}
    (run : storageDeleteItem internalId store = .ok () after) : ∃ later, KeysHold after later := by
  unfold storageDeleteItem at run
  rw [EStateM.bind_ok (EStateM.get_apply store)] at run
  cases found : store.items.find? fun item => item.internalId = internalId with
  | none =>
      rw [found] at run
      cases run
  | some item =>
      have member := List.mem_of_find?_eq_some found
      obtain rfl : item.internalId = internalId := by simpa using List.find?_some found
      rw [found] at run
      obtain ⟨_, _, drop, run⟩ := EStateM.of_bind_ok run
      obtain ⟨_, emptied, release, run⟩ := EStateM.of_bind_ok run
      obtain ⟨_, final, forget, ended⟩ := EStateM.of_bind_ok run
      cases ended
      cases drop
      obtain ⟨dataDisk, rfl⟩ := of_onDataStore release
      obtain ⟨block, there, alive, _⟩ := holds.keyBlock member
      obtain ⟨keyDisk, names, trimmed, held, quiet, released⟩ :=
        trimBlocks_run [⟨item.keyStorageOffset, 0#64⟩] holds.keyDisk holds.keyQuiet (by simp)
          (by simpa using ⟨block, there, alive⟩)
      obtain ⟨code, middle, releasedKey, done⟩ := EStateM.of_bind_ok trimmed
      obtain rfl : middle = keyDisk := by
        cases done
        rfl
      have key := @resultCode_onKeyStore (store.without item.internalId store.keyDiskStore dataDisk) _ _ _ releasedKey
      have same := key.symm.trans forget
      cases same
      exact ⟨names, holds.without member held quiet released⟩

end

end Menoetius
