import Menoetius.ConnHandler
import Menoetius.Lib.LinkedList
import Menoetius.LfmMatch
import Menoetius.StorageState
import Menoetius.TreeIterate

/-
This file models how `storage.c` keeps its items in the trees and in the list.
-/

namespace Menoetius
open SearchTree LinkedList

/-- What the trees and the list see of an item. The fields do not change while the item is in use. -/
structure IndexItem where
  address : Nat
  internalId : Nat
  key : Option (List UInt8)
  indexVal : List (Option CString)
  deriving DecidableEq

/-- The key of an item. Placeholders have none, but they are only in the tree of internal ids. -/
def IndexItem.keyBytes (item : IndexItem) : List UInt8 := item.key.getD []

/-- The key as a string, which is the name of the metric. -/
def IndexItem.keyString (item : IndexItem) : Option CString := item.key.map fun key => CString.at (key ++ [0])

/-- The labels come behind the special indices. -/
def IndexItem.value (item : IndexItem) (label : Nat) : Option CString := item.indexVal.getD label none

def nullstrcmp : Option CString → Option CString → Ordering
  | none, none => .eq
  | none, some _ => .lt
  | some _, none => .gt
  | some first, some second => strcmp first second

def internalIdIndex : Nat := 0

def lfmIndex : Nat := 1

/-- The comparison of the tree with a number. -/
def storageItemCmp (index : Nat) (a b : IndexItem) : Ordering :=
  match index with
  | 0 => if a.internalId < b.internalId then .lt else if b.internalId < a.internalId then .gt else .eq
  | 1 =>
      if a.keyBytes.length ≠ b.keyBytes.length then compare a.keyBytes.length b.keyBytes.length
      else compare a.keyBytes b.keyBytes
  | 2 => nullstrcmp a.keyString b.keyString
  | label + 3 => nullstrcmp (a.value label) (b.value label)

/-- The trees and the list of a storage. -/
structure Indexes where
  debugBuild : Bool
  indices : List CString
  nextInternalId : Nat
  roots : List (RbTree IndexItem)
  list : Links IndexItem

namespace Indexes

/-- `storage_init` starts with trees that are empty. -/
def init (debugBuild : Bool) (indices : List CString) : Indexes where
  debugBuild
  indices
  nextInternalId := 1
  roots := List.replicate (indices.length + numSpecialIndices) .leaf
  list := Links.empty

/-- `store->root[index]`. -/
def root (store : Indexes) (index : Nat) : RbTree IndexItem := store.roots.getD index .leaf

/-- The address is what `my_malloc` returns. -/
def storageItemNew (store : Indexes) (key : Option (List UInt8)) (internalId address : Nat) :
    Except Failure IndexItem := do
  match key with
  | none => pure { address, internalId, key, indexVal := [] }
  | some bytes =>
      let indexVal ← store.indices.mapM (getKeyValue store.debugBuild (bytes ++ [0]) bytes.length)
      pure { address, internalId, key, indexVal }

/-- An item goes behind `list_root_last`. -/
def listAppend (list : Links IndexItem) (p : IndexItem) : Except Failure (Links IndexItem) :=
  if list.first = none then
    pure ⟨some p, some p, Function.update list.next p none, Function.update list.prev p none⟩
  else
    match list.last with
    | none => throw (.abort .memory)
    | some last =>
        if list.next last ≠ none then throw (.abort .storageInsertLast)
        else
          pure ⟨list.first, some p, Function.update (Function.update list.next last (some p)) p none,
            Function.update list.prev p (some last)⟩

/-- An item without a key is only in the tree of internal ids. -/
def storageInsertItem (store : Indexes) (key : Option (List UInt8)) (internalId address : Nat) :
    Except Failure (IndexItem × Indexes) := do
  let p ← store.storageItemNew key internalId address
  if key = none then
    let root := sglibAdd (storageItemCmp internalIdIndex) IndexItem.address (store.root internalIdIndex) p
    pure (p, { store with roots := store.roots.set internalIdIndex root })
  else
    let roots := store.roots.mapIdx fun index root => sglibAdd (storageItemCmp index) IndexItem.address root p
    let list ← listAppend store.list p
    pure (p, { store with roots, list })

/-- The item to find has this key and no other field. -/
def keyToFind (key : List UInt8) : IndexItem := { address := 0, internalId := 0, key := some key, indexVal := [] }

def idToFind (internalId : Nat) : IndexItem := { address := 0, internalId, key := none, indexVal := [] }

def findKey (store : Indexes) (key : List UInt8) : Option IndexItem :=
  sglibFindMember (storageItemCmp lfmIndex (keyToFind key)) (store.root lfmIndex)

def findId (store : Indexes) (internalId : Nat) : Option IndexItem :=
  sglibFindMember (storageItemCmp internalIdIndex (idToFind internalId)) (store.root internalIdIndex)

/-- The id grows in an `int64_t`. -/
def storageGetItem (store : Indexes) (key : List UInt8) (insert : Bool) (address : Nat) :
    Except Failure (IndexItem × Indexes) :=
  match store.findKey key with
  | some item => pure (item, store)
  | none =>
      if insert then
        if key.length = 0 then throw (.abort .storageGetItemKey)
        else do
          let (item, after) ← store.storageInsertItem (keyOf key) store.nextInternalId address
          if store.nextInternalId + 1 = 2 ^ 63 then throw (.abort .storageNextInternalId)
          else pure (item, { after with nextInternalId := (store.nextInternalId + 1) % 2 ^ 64 })
      else
        throw (.code .lookupFailed)

/-- The items from `list_root` to the end of the list. -/
def listItems (store : Indexes) : List IndexItem :=
  store.list.walk (store.root internalIdIndex).toList.length store.list.first

/-- The neighbours of the item are linked with each other before the ends of the list are checked. -/
def listRemove (list : Links IndexItem) (item : IndexItem) : Except Failure (Links IndexItem) :=
  if list.first = some item ∧ list.prev item ≠ none then throw (.abort .storageDeleteFirst)
  else if list.last = some item ∧ list.next item ≠ none then throw (.abort .storageDeleteLast)
  else pure (list.remove item)

/-- The loop over the trees, from the tree with the given number on. -/
def deleteFromRoots (item : IndexItem) : Nat → List (RbTree IndexItem) → Except Failure (List (RbTree IndexItem))
  | _, [] => pure []
  | index, root :: rest => do
      let root ← sglibDelete (storageItemCmp index) IndexItem.address root item
      let rest ← deleteFromRoots item (index + 1) rest
      pure (root :: rest)

def storageDeleteItem (store : Indexes) (item : IndexItem) : Except Failure Indexes := do
  let list ← listRemove store.list item
  let roots ← deleteFromRoots item 0 store.roots
  pure { store with roots, list }

/-- This is how `storage_insert_data_block_during_initial_load` finds the item of a block. -/
def storagePlaceholder (store : Indexes) (internalId address : Nat) : Except Failure Indexes :=
  match store.findId internalId with
  | some _ => pure store
  | none => do
      let (_, after) ← store.storageInsertItem none internalId address
      pure after

def storageAttachKeyToItem (store : Indexes) (key : List UInt8) (internalId address : Nat) : Except Failure Indexes :=
  match store.findId internalId with
  | none => pure store
  | some p =>
      if p.key ≠ none then throw (.abort .storageAttachKey)
      else do
        let root ← sglibDelete (storageItemCmp internalIdIndex) IndexItem.address (store.root internalIdIndex) p
        let (_, after) ← storageInsertItem { store with roots := store.roots.set internalIdIndex root } (keyOf key)
          internalId address
        pure after

/-- One round of the second loop of `storage_load`. -/
def storageLoadKey (store : Indexes) (key : List UInt8) (internalId address : Nat) : Except Failure Indexes :=
  if key.length = 0 ∨ key.getD 0 0 = 0 then throw (.abort .storageLoadKey)
  else
    let nextInternalId :=
      if store.nextInternalId ≤ internalId then (internalId + 1) % 2 ^ 64 else store.nextInternalId
    storageAttachKeyToItem { store with nextInternalId } key internalId address

end Indexes

end Menoetius
