import Menoetius.TheStorageStart

/-
This file shows that the loader takes no key that starts with a zero byte.
-/

namespace Menoetius
open LittleEndian

/-- No key starts with a zero byte. -/
def KeysStart (store : Storage) : Prop := ∀ item ∈ store.items, ∀ key, item.key = some key → key.getD 0 0 ≠ 0

/-- What a loop of the loader keeps in every round holds at its end. -/
theorem loadBlocks_keeps {read : Bool → StorageM (Option BlockRead)} {load : BlockRead → StorageM Unit}
    {invariant : Storage → Prop}
    (reads : ∀ initial store result after, invariant store → read initial store = .ok result after → invariant after)
    (loads : ∀ found store after, invariant store → load found store = .ok () after → invariant after) (fuel : Nat) :
    ∀ (initial : Bool) {store after : Storage}, invariant store → loadBlocks read load fuel initial store = .ok () after →
      invariant after := by
  induction fuel with
  | zero =>
      intro initial store after holds run
      cases run
      exact holds
  | succ fuel ih =>
      intro initial store after holds run
      obtain ⟨result, middle, got, run⟩ := EStateM.of_bind_ok run
      have kept := reads initial store result middle holds got
      cases result with
      | none =>
          cases run
          exact kept
      | some block =>
          obtain ⟨_, next, loaded, rest⟩ := EStateM.of_bind_ok run
          exact ih false (loads block _ next kept loaded) rest

section
variable {store after : Storage}

theorem of_onKeyStore {α : Type} {action : DiskM α} {value : α} (run : onKeyStore action store = .ok value after) :
    ∃ disk, after = { store with keyDiskStore := disk } := by
  unfold onKeyStore at run
  split at run
  · cases run
    exact ⟨_, rfl⟩
  · cases run

theorem KeysStart.onItem (start : KeysStart store) {α : Type} {action : ItemM α}
    (keeps : KeepsView StorageItem.place action) {internalId : Nat} {value : α}
    (run : onItem internalId action store = .ok value after) : KeysStart after := by
  unfold Menoetius.onItem at run
  split at run
  · cases run
  · rename_i item found
    split at run
    · rename_i state changed
      cases run
      intro other present key named
      obtain ⟨old, there, same⟩ := List.mem_map.mp present
      split at same
      · have place : state.item.key = item.key := congrArg (fun place => place.2.1) ((keeps _).of_ok changed)
        rw [← same, place] at named
        exact start item (List.mem_of_find?_eq_some found) key named
      · exact start old there key (same ▸ named)
    · cases run

theorem KeysStart.loadBlock (start : KeysStart store) {found : BlockRead}
    (run : storageLoadBlock found store = .ok () after) : KeysStart after := by
  obtain ⟨middle, inserted, first, lastBlock, placed, keeps, insert, rest⟩ := storageLoadBlock_steps run
  have begun : KeysStart middle := by
    rcases of_storagePlaceholder placed with ⟨_, rfl⟩ | ⟨_, data, rfl⟩
    · exact start
    · intro item member key named
      rcases List.mem_append.mp member with old | new
      · exact start item old key named
      · rw [List.mem_singleton.mp new] at named
        cases named
  have placed := begun.onItem keeps insert
  rcases rest with rfl | ⟨second, again, changed⟩
  · exact placed
  · exact placed.onItem again changed

/-- The key of an item has passed the check of the loader. -/
theorem KeysStart.attach (start : KeysStart store) {key : List UInt8} (text : key.getD 0 0 ≠ 0) {internalId offset : Nat}
    {attached : Bool} (run : storageAttachKeyToItem key internalId offset store = .ok attached after) :
    KeysStart after := by
  unfold storageAttachKeyToItem at run
  rw [EStateM.bind_ok (EStateM.get_apply store)] at run
  cases found : store.items.find? fun item => item.internalId = internalId with
  | none =>
      rw [found] at run
      cases run
      exact start
  | some item =>
      rw [found] at run
      obtain ⟨-, run⟩ := of_require_bind run
      cases run
      intro other present name named
      rcases List.mem_append.mp present with old | new
      · exact start other (List.mem_of_mem_filter old) name named
      · rw [List.mem_singleton.mp new] at named
        dsimp only at named
        unfold keyOf at named
        split at named
        · cases named
        · rw [← Option.some.inj named]
          exact text

theorem KeysStart.loadKey (start : KeysStart store) {found : BlockRead}
    (run : storageLoadKey found store = .ok () after) : KeysStart after := by
  obtain ⟨-, run⟩ := of_require_bind run
  obtain ⟨-, run⟩ := of_require_bind run
  obtain ⟨text, run⟩ := of_require_bind run
  obtain ⟨_, counted, count, run⟩ := EStateM.of_bind_ok run
  cases count
  have begun : KeysStart (if store.nextInternalId ≤ valueOf ((found.buf.drop (2 + valueOf (found.buf.take 2))).take 8)
      then { store with nextInternalId := (valueOf ((found.buf.drop (2 + valueOf (found.buf.take 2))).take 8) + 1) % 2 ^ 64 }
      else store) := by
    split
    · exact start
    · exact start
  obtain ⟨attached, middle, attach, run⟩ := EStateM.of_bind_ok run
  have named := begun.attach text.2 attach
  split at run
  · obtain ⟨_, _, tell, run⟩ := EStateM.of_bind_ok run
    obtain ⟨first, rfl⟩ := of_onKeyStore tell
    obtain ⟨_, _, release, run⟩ := EStateM.of_bind_ok run
    obtain ⟨second, rfl⟩ := of_onKeyStore release
    obtain ⟨_, _, restore, ended⟩ := EStateM.of_bind_ok run
    obtain ⟨third, rfl⟩ := of_onKeyStore restore
    cases ended
    exact named
  · cases run
    exact named

/-- `storage_init` returns only when no key in the store starts with a zero byte. -/
theorem storageInit_keysStart {retentionSeconds : Int} {s : Nat} {memory : Nat → Nat → UInt8}
    (run : storageInit retentionSeconds s memory store = .ok () after) : KeysStart after := by
  obtain ⟨_, _, begin, run⟩ := EStateM.of_bind_ok run
  cases begin
  obtain ⟨_, _, openKeys, run⟩ := EStateM.of_bind_ok run
  obtain ⟨keyDisk, rfl⟩ := of_onKeyStore openKeys
  obtain ⟨_, _, openData, run⟩ := EStateM.of_bind_ok run
  obtain ⟨dataDisk, rfl⟩ := of_onDataStore openData
  unfold storageLoad at run
  rw [EStateM.bind_ok (EStateM.get_apply _)] at run
  obtain ⟨_, middle, blocks, run⟩ := EStateM.of_bind_ok run
  have first : KeysStart middle := by
    refine loadBlocks_keeps ?_ (fun found current later holds loaded => KeysStart.loadBlock holds loaded) _ true ?_ blocks
    · intro initial current result later holds got
      obtain ⟨disk, rfl⟩ := of_onDataStore got
      exact holds
    · intro item member
      cases member
  rw [EStateM.bind_ok (EStateM.get_apply _)] at run
  obtain ⟨_, last, keys, run⟩ := EStateM.of_bind_ok run
  have second : KeysStart last := by
    refine loadBlocks_keeps ?_ (fun found current later holds loaded => KeysStart.loadKey holds loaded) _ true first keys
    intro initial current result later holds got
    obtain ⟨disk, rfl⟩ := of_onKeyStore got
    exact holds
  obtain ⟨_, items, places, rfl⟩ := of_storageLoadItems run
  intro item member key named
  have there := List.mem_map_of_mem (f := StorageItem.place) member
  rw [places] at there
  obtain ⟨old, present, same⟩ := List.mem_map.mp there
  have key_eq : old.key = item.key := congrArg (fun place => place.2.1) same
  exact second old present key (key_eq.trans named)

end

end Menoetius
