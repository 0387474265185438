import Menoetius.CleanerCalls
import Menoetius.StorageRun

/-
This file follows the cleaner over the list, one item after the other.
-/

namespace Menoetius
open LinkedList

section
variable {store after : TheStorage} {front rest : List IndexItem} {item : IndexItem} {t : Int}

/-- The item leaves both views. -/
theorem storageDeleteItem_holds (holds : store.Holds (front ++ item :: rest)) {next : Option IndexItem}
    (run : TheStorage.storageDeleteItem item store = .ok next after) :
    next = rest.head? ∧ SameConfig store.storage after.storage ∧
      after.storage.nextInternalId = store.storage.nextInternalId ∧ after.Holds (front ++ rest) := by
  have behind := holds.consistent.list.next front item rest rfl
  obtain ⟨_, _, start, run⟩ := EStateM.of_bind_ok run
  cases start
  obtain ⟨_, _, unlink, run⟩ := EStateM.of_bind_ok run
  obtain ⟨_, _, release, ended⟩ := EStateM.of_bind_ok run
  cases ended
  obtain ⟨indexes, unlinked, rfl⟩ := of_onIndexes unlink
  obtain ⟨storage, released, rfl⟩ := of_onStorage release
  obtain ⟨config, last, names⟩ := storageDeleteItem_names released
  obtain ⟨other, deleted, consistent, same⟩ := Indexes.storageDeleteItem_run holds.consistent
  rw [deleted] at unlinked
  obtain rfl : other = indexes := by
    cases unlinked
    rfl
  have part : (front ++ rest).Sublist (front ++ item :: rest) := (List.sublist_cons_self item rest).append_left front
  refine ⟨behind, config, last,
    { consistent
      names := ?_
      next := ?_
      ids := holds.ids.sublist (part.map _)
      below := ?_
      small := ?_ }⟩
  · have ids := holds.ids
    rw [List.map_append, List.nodup_append, List.map_cons, List.nodup_cons] at ids
    have others : ∀ part : List IndexItem, (∀ other ∈ part, other.internalId ≠ item.internalId) →
        part.filter ((fun name => decide (name.1 ≠ item.internalId)) ∘ IndexItem.name) = part := by
      intro part different
      rw [List.filter_eq_self]
      intro other member
      exact decide_eq_true (different other member)
    dsimp only
    rw [names, ← holds.names, List.filter_map, List.filter_append, List.filter_cons_of_neg (by simp [IndexItem.name]),
      others front, others rest]
    · intro other member equal
      exact ids.2.1.1 (List.mem_map.mpr ⟨other, member, equal⟩)
    · intro other member equal
      exact ids.2.2 _ (List.mem_map_of_mem member) _ List.mem_cons_self equal
  · rw [same]
    exact holds.next.trans last.symm
  · intro other present
    dsimp only
    rw [last]
    exact holds.below other (part.subset present)
  · dsimp only
    rw [last]
    exact holds.small

/-- The item that is saved after a round of the loop is the one behind the item. -/
theorem cleanItem_holds (holds : store.Holds (front ++ item :: rest)) {next : Option IndexItem}
    (run : TheStorage.cleanItem t item store = .ok next after) :
    next = rest.head? ∧ SameConfig store.storage after.storage ∧
      after.storage.nextInternalId = store.storage.nextInternalId ∧
      ∃ kept, kept.Sublist (front ++ [item]) ∧ after.Holds (kept ++ rest) := by
  obtain ⟨shouldDelete, _, trim, run⟩ := EStateM.of_bind_ok run
  obtain ⟨storage, trimmed, rfl⟩ := of_onStorage trim
  have same := (onItem_sameNames (storageTrimAndWriteToDisk_keeps name_hidesData t).name holds.storageDistinct _).of_ok trimmed
  have still := holds.withStorage same
  have behind := holds.consistent.list.next front item rest rfl
  cases shouldDelete with
  | false =>
      cases run
      exact ⟨behind, same.toSameConfig, same.next, front ++ [item], List.Sublist.refl _, by simpa using still⟩
  | true =>
      obtain ⟨found, config, last, kept⟩ := storageDeleteItem_holds still run
      exact ⟨found, same.toSameConfig.trans config, last.trans same.next, front, List.sublist_append_left _ _, kept⟩

/-- What a batch leaves of a list: the items that it has passed are no longer ahead. -/
structure BatchHolds (store after : TheStorage) (ahead : List IndexItem) (saved : Option IndexItem) : Prop where
  config : SameConfig store.storage after.storage
  next : after.storage.nextInternalId = store.storage.nextInternalId
  saved : saved = ahead.head?
  list : ∃ kept, after.Holds (kept ++ ahead)

/-- A batch passes the next items of the list. -/
theorem storageThreadBatch_holds (numItems : Nat) :
    ∀ {store after : TheStorage} {front ahead trimmed : List IndexItem} {saved : Option IndexItem},
      store.Holds (front ++ ahead) →
      TheStorage.storageThreadBatch t numItems ahead.head? store = .ok (trimmed, saved) after →
      trimmed = ahead.take numItems ∧ BatchHolds store after (ahead.drop numItems) saved := by
  induction numItems with
  | zero =>
      intro store after front ahead trimmed saved holds run
      cases run
      exact ⟨rfl, .refl _, rfl, rfl, front, holds⟩
  | succ numItems ih =>
      intro store after front ahead trimmed saved holds run
      cases ahead with
      | nil =>
          cases run
          exact ⟨rfl, .refl _, rfl, rfl, front, holds⟩
      | cons item rest =>
          obtain ⟨next, middle, passed, run⟩ := EStateM.of_bind_ok run
          obtain ⟨⟨others, last⟩, final, batch, ended⟩ := EStateM.of_bind_ok run
          cases ended
          obtain ⟨rfl, config, same, kept, _, still⟩ := cleanItem_holds holds passed
          obtain ⟨rfl, later⟩ := ih still batch
          exact ⟨rfl, config.trans later.config, later.next.trans same, later.saved, later.list⟩

/-- The loop of `clean_items` does the same as a batch, and goes on. -/
theorem cleanItemsLoop_batch (numItems : Nat) :
    ∀ {store after : TheStorage} {item saved : Option IndexItem} {trimmed : List IndexItem} {rounds : Nat},
      TheStorage.storageThreadBatch t numItems item store = .ok (trimmed, saved) after → trimmed.length ≤ rounds →
      TheStorage.cleanItemsLoop t rounds item store =
        TheStorage.cleanItemsLoop t (rounds - trimmed.length) saved after := by
  induction numItems with
  | zero =>
      intro store after item saved trimmed rounds run _
      cases run
      rfl
  | succ numItems ih =>
      intro store after item saved trimmed rounds run enough
      cases item with
      | none =>
          cases run
          rfl
      | some item =>
          obtain ⟨next, middle, passed, run⟩ := EStateM.of_bind_ok run
          obtain ⟨⟨others, last⟩, final, batch, ended⟩ := EStateM.of_bind_ok run
          cases ended
          rw [List.length_cons] at enough ⊢
          obtain ⟨rounds, rfl⟩ : ∃ less, rounds = less + 1 := ⟨rounds - 1, by omega⟩
          rw [TheStorage.cleanItemsLoop, EStateM.bind_ok passed, ih batch (Nat.le_of_succ_le_succ enough),
            Nat.add_sub_add_right]

/-- The loop along a list of internal ids does the same for an item as the loop along the list. -/
theorem cleanLoop_item {next : Option IndexItem} (run : TheStorage.cleanItem t item store = .ok next after)
    (rest : List Nat) : cleanLoop t (item.internalId :: rest) store.storage = cleanLoop t rest after.storage := by
  obtain ⟨shouldDelete, _, trim, run⟩ := EStateM.of_bind_ok run
  obtain ⟨storage, trimmed, rfl⟩ := of_onStorage trim
  rw [cleanLoop, EStateM.bind_ok trimmed]
  cases shouldDelete with
  | false =>
      cases run
      rfl
  | true =>
      obtain ⟨_, _, start, run⟩ := EStateM.of_bind_ok run
      cases start
      obtain ⟨_, _, unlink, run⟩ := EStateM.of_bind_ok run
      obtain ⟨_, _, release, ended⟩ := EStateM.of_bind_ok run
      cases ended
      obtain ⟨indexes, _, rfl⟩ := of_onIndexes unlink
      obtain ⟨final, released, rfl⟩ := of_onStorage release
      exact EStateM.bind_ok released _

theorem cleanLoop_batch (numItems : Nat) (rest : List Nat) :
    ∀ {store after : TheStorage} {item saved : Option IndexItem} {trimmed : List IndexItem},
      TheStorage.storageThreadBatch t numItems item store = .ok (trimmed, saved) after →
      cleanLoop t (trimmed.map IndexItem.internalId ++ rest) store.storage = cleanLoop t rest after.storage := by
  induction numItems with
  | zero =>
      intro store after item saved trimmed run
      cases run
      rfl
  | succ numItems ih =>
      intro store after item saved trimmed run
      cases item with
      | none =>
          cases run
          rfl
      | some item =>
          obtain ⟨next, middle, passed, run⟩ := EStateM.of_bind_ok run
          obtain ⟨⟨others, last⟩, final, batch, ended⟩ := EStateM.of_bind_ok run
          cases ended
          rw [List.map_cons, List.cons_append, cleanLoop_item passed, ih batch]

/-- The blocks on disk of the items are in order. -/
def Storage.Healthy (s : Nat) (storage : Storage) : Prop :=
  ∃ keyBlocks dataBlocks, StorageHolds (ItemOwns s) storage keyBlocks dataBlocks

/-- While the blocks on disk are in order the cleaner passes an item. -/
theorem cleanItem_run {s : Nat} (holds : store.Holds (front ++ item :: rest)) (healthy : store.storage.Healthy s)
    (t : Int) : ∃ next after, TheStorage.cleanItem t item store = .ok next after ∧ after.storage.Healthy s := by
  obtain ⟨keyBlocks, dataBlocks, held⟩ := healthy
  obtain ⟨found, member, same⟩ : ∃ found ∈ store.storage.items, found.internalId = item.internalId := by
    rw [← List.mem_map, holds.storageIds]
    exact List.mem_map_of_mem (by simp)
  obtain ⟨before, behind, split⟩ := List.append_of_mem member
  have pending : StorageHolds (Pending (ItemOwns s) (ItemOwns s) [found.internalId]) store.storage keyBlocks
      dataBlocks := held.mono fun _ _ owns => by rwa [Pending, ite_self]
  obtain ⟨shouldDelete, middle, storage, names, later, trim, drop, kept, _⟩ :=
    cleanStep_run ((ownLaw s).clean t) pending split List.not_mem_nil
  have healthy : storage.Healthy s := ⟨names, later, kept.mono fun _ _ owns => by rwa [Pending, ite_self] at owns⟩
  rw [same] at trim drop
  have still := holds.withStorage
    ((onItem_sameNames (storageTrimAndWriteToDisk_keeps name_hidesData t).name holds.storageDistinct _).of_ok trim)
  have trimmed : TheStorage.onStorage (onItem item.internalId (storageTrimAndWriteToDisk t)) store =
      .ok shouldDelete { store with storage := middle } := by
    simp only [TheStorage.onStorage, trim]
  rw [TheStorage.cleanItem, EStateM.bind_ok trimmed]
  cases shouldDelete with
  | false =>
      cases drop
      exact ⟨_, _, rfl, healthy⟩
  | true =>
      obtain ⟨indexes, deleted, _⟩ := Indexes.storageDeleteItem_run still.consistent
      refine ⟨store.indexes.list.next item, ⟨storage, indexes⟩, ?_, healthy⟩
      rw [if_pos rfl, TheStorage.storageDeleteItem, EStateM.bind_ok (EStateM.get_apply _)]
      have unlink : TheStorage.onIndexes (fun indexes => do
          let after ← indexes.storageDeleteItem item
          pure ((), after)) ⟨middle, store.indexes⟩ = .ok () ⟨middle, indexes⟩ := by
        simp only [TheStorage.onIndexes, deleted]
        rfl
      have release : TheStorage.onStorage (storageDeleteItem item.internalId) ⟨middle, indexes⟩ =
          .ok () ⟨storage, indexes⟩ := by
        have run : storageDeleteItem item.internalId middle = .ok () storage := drop
        simp only [TheStorage.onStorage, run]
      exact (EStateM.bind_ok unlink _).trans (EStateM.bind_ok release _)

theorem storageThreadBatch_run {s : Nat} (t : Int) (numItems : Nat) :
    ∀ {store : TheStorage} {front ahead : List IndexItem}, store.Holds (front ++ ahead) → store.storage.Healthy s →
      ∃ result after, TheStorage.storageThreadBatch t numItems ahead.head? store = .ok result after ∧
        after.storage.Healthy s := by
  induction numItems with
  | zero => exact fun _ healthy => ⟨_, _, rfl, healthy⟩
  | succ numItems ih =>
      intro store front ahead holds healthy
      cases ahead with
      | nil => exact ⟨_, _, rfl, healthy⟩
      | cons item rest =>
          obtain ⟨next, middle, passed, healthy⟩ := cleanItem_run holds healthy t
          obtain ⟨rfl, _, _, kept, _, still⟩ := cleanItem_holds holds passed
          obtain ⟨result, after, batch, healthy⟩ := ih still healthy
          exact ⟨_, after, (EStateM.bind_ok passed _).trans (EStateM.bind_ok batch _), healthy⟩

end

end Menoetius
