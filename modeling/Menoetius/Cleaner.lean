import Menoetius.StorageLookup

/-
This file models the thread of `storage.c` that cleans the items in batches, next to the calls of the clients.
-/

namespace Menoetius
open LinkedList

/-- A whole `struct the_storage`: the contents of its items, and the trees and the list that they are in. -/
structure TheStorage where
  storage : Storage
  indexes : Indexes

abbrev TheStorageM := EStateM Failure TheStorage

namespace TheStorage

def onStorage {α : Type} (action : StorageM α) : TheStorageM α := fun store =>
  match action store.storage with
  | .ok value after => .ok value { store with storage := after }
  | .error failure after => .error failure { store with storage := after }

def onIndexes {α : Type} (change : Indexes → Except Failure (α × Indexes)) : TheStorageM α := fun store =>
  match change store.indexes with
  | .ok (value, after) => .ok value { store with indexes := after }
  | .error failure => .error failure store

/-- The item that the tree of the keys has, or a new one with its contents. The address is what `my_malloc` returns when
the key is new. -/
def storageGetItem (key : List UInt8) (insert : Bool) (address : Nat) : TheStorageM IndexItem := do
  match (← get).indexes.findKey key with
  | some item => pure item
  | none => do
      let item ← onIndexes fun indexes => indexes.storageGetItem key insert address
      let _ ← onStorage (Menoetius.storageGetItem key insert)
      pure item

def storageWrite (key : List UInt8) (points : List Point) (address : Nat) : TheStorageM Written := do
  let item ← storageGetItem key true address
  onStorage (onItem item.internalId (storageWriteLoop points))

def storageGet (key : List UInt8) (maxNumPts : Nat) : TheStorageM (List Point) := do
  let item ← storageGetItem key false 0
  onStorage (onItem item.internalId (storageGetAll item.internalId maxNumPts))

def storageSync : TheStorageM Unit := onStorage Menoetius.storageSync

def storageLookup (indexNum : Nat) (labelValue : CString) (extraMatchers : List UInt8)
    (numExtraMatchers maxResultsSize offset limit : Nat) : TheStorageM (List UInt8) := do
  let store ← get
  ofExcept (store.indexes.storageLookup indexNum labelValue extraMatchers numExtraMatchers maxResultsSize offset limit)

def storageLookupWithoutIndex (matchers : List UInt8) (numMatchers maxResultsSize lastInternalId limit : Nat) :
    TheStorageM (Option Err × List UInt8 × Nat) := do
  let store ← get
  ofExcept (store.indexes.storageLookupWithoutIndex matchers numMatchers maxResultsSize lastInternalId limit)

/-- The result is `item->next`, which is read before the item leaves the list. -/
def storageDeleteItem (item : IndexItem) : TheStorageM (Option IndexItem) := do
  let nextItem := (← get).indexes.list.next item
  onIndexes fun indexes => do
    let after ← indexes.storageDeleteItem item
    pure ((), after)
  onStorage (Menoetius.storageDeleteItem item.internalId)
  pure nextItem

/-- The body that the loops of `clean_items` and of `storage_thread_run` share. The result is the next item. -/
def cleanItem (t : Int) (item : IndexItem) : TheStorageM (Option IndexItem) := do
  let shouldDelete ← onStorage (onItem item.internalId (storageTrimAndWriteToDisk t))
  if shouldDelete then storageDeleteItem item
  else do
    let store ← get
    pure (store.indexes.list.next item)

/-- The number of rounds is no limit of the source. A list that is longer would stop the model here. -/
def cleanItemsLoop (t : Int) : Nat → Option IndexItem → TheStorageM Unit
  | _, none => pure ()
  | 0, some _ => throw (.abort .memory)
  | rounds + 1, some item => do
      let next ← cleanItem t item
      cleanItemsLoop t rounds next

def cleanItems (now : Int) : TheStorageM Unit := do
  let store ← get
  cleanItemsLoop (now - store.storage.retentionSeconds) store.indexes.listItems.length store.indexes.list.first

def maxNumItems : Nat := 50

/-- The inner loop of `storage_thread_run`, which stops at `max_num_items` or at the end of the list. The results are
the items that were passed to `storage_trim_and_write_to_disk` and the item that is saved for the next batch. -/
def storageThreadBatch (t : Int) : Nat → Option IndexItem → TheStorageM (List IndexItem × Option IndexItem)
  | 0, item => pure ([], item)
  | _ + 1, none => pure ([], none)
  | numItems + 1, some item => do
      let next ← cleanItem t item
      let (trimmed, saved) ← storageThreadBatch t numItems next
      pure (item :: trimmed, saved)

/-- One round of `storage_thread_run`, which holds the lock from its first access of the list to its last one. A round
without a saved item restarts from `list_root`. -/
def storageThreadRound (now : Int) (item : Option IndexItem) : TheStorageM (List IndexItem × Option IndexItem) := do
  let store ← get
  let item := if item = none then store.indexes.list.first else item
  storageThreadBatch (now - store.storage.retentionSeconds) maxNumItems item

end TheStorage

/-- The process goes on when the call returns a code. -/
def ignoreCode {α : Type} (action : TheStorageM α) : TheStorageM Unit := fun store =>
  match action store with
  | .ok _ after => .ok () after
  | .error (.code _) after => .ok () after
  | .error (.abort site) after => .error (.abort site) after

/-- The calls of the clients, each under the lock of the storage. -/
inductive ClientCall where
  | write (key : List UInt8) (points : List Point) (address : Nat)
  | get (key : List UInt8) (maxNumPts : Nat)
  | lookup (indexNum : Nat) (labelValue : CString) (extraMatchers : List UInt8)
      (numExtraMatchers maxResultsSize offset limit : Nat)
  | lookupWithoutIndex (matchers : List UInt8) (numMatchers maxResultsSize lastInternalId limit : Nat)
  | sync

def ClientCall.run : ClientCall → TheStorageM Unit
  | .write key points address => do
      let _ ← TheStorage.storageWrite key points address
  | .get key maxNumPts => ignoreCode (TheStorage.storageGet key maxNumPts)
  | .lookup indexNum labelValue extraMatchers numExtraMatchers maxResultsSize offset limit =>
      ignoreCode (TheStorage.storageLookup indexNum labelValue extraMatchers numExtraMatchers maxResultsSize offset
        limit)
  | .lookupWithoutIndex matchers numMatchers maxResultsSize lastInternalId limit =>
      ignoreCode (TheStorage.storageLookupWithoutIndex matchers numMatchers maxResultsSize lastInternalId limit)
  | .sync => ignoreCode TheStorage.storageSync

/-- Keys have 1 to 1024 bytes, and `my_malloc` returns an address that is not in use. -/
def ClientCall.Valid (store : TheStorage) : ClientCall → Prop
  | .write key _ address => ValidKey key ∧ store.indexes.Fresh address
  | _ => True

/-- The storage, and the item that `storage_thread_run` keeps between two rounds. -/
structure Cleaner where
  store : TheStorage
  item : Option IndexItem

end Menoetius
