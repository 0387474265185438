import Menoetius.PagedScan
import Menoetius.PutReload
import Menoetius.SessionRun
import Menoetius.TheStorageRun

/-
This file puts a whole storage behind the server of a client.
-/

namespace Menoetius
open EStateM LittleEndian

/-- The trees, the list and the keys agree. -/
def TheStorage.IsIndexed (store : TheStorage) : Prop := ∃ items, store.Indexed items

section
variable {store after : TheStorage} {items : List IndexItem}

/-- A read changes neither the keys nor their blocks. -/
theorem storageGet_view (distinct : (store.storage.items.map StorageItem.internalId).Nodup) (key : List UInt8)
    (maxNumPts : Nat) :
    (Menoetius.storageGet key maxNumPts).Ends store.storage (fun _ after => SameView StorageItem.place store.storage after)
      fun _ after => SameView StorageItem.place store.storage after := by
  unfold Menoetius.storageGet
  apply ((storageGetItem_sameNames key).mono (fun _ _ same => same) ?_).bind
  · rintro internalId _ rfl
    exact onItem_view place_showsId (storageGetAll_keeps internalId maxNumPts) distinct internalId
  · rintro _ _ rfl
    exact .refl _ _

/-- A get of a whole storage has a limit too. -/
theorem theStorageGet_length_le {key : List UInt8} {maxNumPts : Nat} {points : List Point}
    (run : TheStorage.storageGet key maxNumPts store = .ok points after) : points.length ≤ maxNumPts := by
  obtain ⟨item, _, _, read⟩ := of_bind_ok run
  obtain ⟨_, got, _⟩ := of_onStorage read
  exact storageGetAll_length_le got

theorem of_look {α : Type} {look : TheStorage → Except Failure α} {value : α}
    (run : (do let store ← get; ofExcept (look store) : TheStorageM α) store = .ok value after) :
    look store = .ok value := by
  obtain ⟨_, _, start, run⟩ := of_bind_ok run
  cases start
  cases made : look store with
  | ok other =>
      rw [made] at run
      cases run
      rfl
  | error failure =>
      rw [made] at run
      cases run

theorem resultsOf_returnsKeys (consistent : store.indexes.Consistent items []) {page : List IndexItem}
    (part : ∀ item ∈ page, item ∈ items) : ReturnsKeys (resultsOf page) := by
  refine ⟨page.map IndexItem.keyBytes, ?_, fun key mem => ?_⟩
  · rw [List.flatMap_map]
    rfl
  · obtain ⟨item, inside, rfl⟩ := List.mem_map.mp mem
    exact (consistent.keyBytes (part item inside)).2

theorem storageLookup_returnsKeys (indexed : store.Indexed items) {indexNum : Nat} {value : CString}
    {matchers results : List UInt8} {numMatchers room offset limit : Nat}
    (run : TheStorage.storageLookup indexNum value matchers numMatchers room offset limit store = .ok results after) :
    ReturnsKeys results := by
  have found : store.indexes.storageLookup indexNum value matchers numMatchers room offset limit = .ok results :=
    of_look run
  have consistent := indexed.holds.consistent
  by_cases valid : store.indexes.LookupIndex indexNum
  · rw [Indexes.storageLookup_run consistent valid] at found
    split at found
    · cases found
      refine resultsOf_returnsKeys consistent fun item mem => ?_
      have matched := (consistent.matched_perm valid _ _ _).mem_iff.mp
        (List.mem_of_mem_drop (List.mem_of_mem_take mem))
      exact List.mem_of_mem_filter matched
    · cases found
  · have refused : store.indexes.storageLookup indexNum value matchers numMatchers room offset limit =
        .error (.code .badIndex) := if_neg valid
    rw [refused] at found
    cases found

theorem storageLookupWithoutIndex_returnsKeys (indexed : store.Indexed items) {matchers results : List UInt8}
    {numMatchers room lastInternalId limit last : Nat}
    (run : TheStorage.storageLookupWithoutIndex matchers numMatchers room lastInternalId limit store =
      .ok (none, results, last) after) : ReturnsKeys results := by
  obtain ⟨rfl, _⟩ := scanCall_run indexed (of_look run)
  have consistent := indexed.holds.consistent
  refine resultsOf_returnsKeys consistent fun item mem => ?_
  obtain ⟨front, split, _⟩ := Indexes.scanItems_suffix consistent lastInternalId
  rw [split]
  exact List.mem_append_right _ (List.mem_of_mem_filter (List.mem_of_mem_drop (List.mem_of_mem_take mem)))

end

section
variable {sha1 : List UInt8 → List UInt8} {store : TheStorage} {file : List UInt8}

end

end Menoetius
