import Menoetius.Cleaner
import Menoetius.StorageIndexed
import Menoetius.StorageInit

/-
This file models the start of a whole storage: the trees and the list are built while both stores are read.
-/

namespace Menoetius
open LittleEndian

instance (store : Indexes) (address : Nat) : Decidable (store.Fresh address) :=
  @instDecidableAnd _ _ inferInstance (List.decidableBAll _ _)

/-- The checks behind the loops of `storage_load`. -/
def storageLoadItems : StorageM Unit := do
  let store ← get
  require (∀ item ∈ store.items, item.key ≠ none) .storageLoadUnknownKey
  let items ← ofExcept (store.items.mapM storageLoadItem)
  modify fun store => { store with items := items }

namespace TheStorage

/-- `my_malloc` returns any address that is not in use, as the function chooses. -/
def newAddress (choose : Indexes → Nat) : TheStorageM Nat := do
  let store ← get
  require (store.indexes.Fresh (choose store.indexes)) .memory
  return choose store.indexes

/-- One round of the first loop of `storage_load`. -/
def storageLoadBlock (choose : Indexes → Nat) (found : BlockRead) : TheStorageM Unit := do
  onStorage (Menoetius.storageLoadBlock found)
  let address ← newAddress choose
  onIndexes fun indexes => do
    let after ← indexes.storagePlaceholder (valueOf (found.buf.take 8)) address
    pure ((), after)

/-- One round of the second loop of `storage_load`. -/
def storageLoadKey (choose : Indexes → Nat) (found : BlockRead) : TheStorageM Unit := do
  onStorage (Menoetius.storageLoadKey found)
  let keyLen := valueOf (found.buf.take 2)
  let address ← newAddress choose
  onIndexes fun indexes => do
    let after ← indexes.storageLoadKey ((found.buf.drop 2).take keyLen)
      (valueOf ((found.buf.drop (2 + keyLen)).take 8)) address
    pure ((), after)

/-- The two loops of `storage_load`. -/
def loadBlocks (read : Bool → StorageM (Option BlockRead)) (load : BlockRead → TheStorageM Unit) :
    Nat → Bool → TheStorageM Unit
  | 0, _ => pure ()
  | fuel + 1, initial => do
      match ← onStorage (read initial) with
      | none => pure ()
      | some found => do
          load found
          loadBlocks read load fuel false

def storageLoad (choose : Indexes → Nat) : TheStorageM Unit := do
  let store ← get
  loadBlocks (fun initial => onDataStore (diskStorageReadBlocksFromStart initial storageLoadMaxN))
    (storageLoadBlock choose) (store.storage.dataDiskStore.fd.bytes.length + 1) true
  let store ← get
  loadBlocks (fun initial => onKeyStore (diskStorageReadBlocksFromStart initial storageLoadMaxN))
    (storageLoadKey choose) (store.storage.keyDiskStore.fd.bytes.length + 1) true
  onStorage storageLoadItems

/-- The indices and the two stores are those of the state. -/
def storageInit (retentionSeconds : Int) (initialTscBufSize : Nat) (memory : Nat → Nat → UInt8)
    (choose : Indexes → Nat) : TheStorageM Unit := do
  modify fun store =>
    ⟨{ store.storage with
      initialTscBufSize := initialTscBufSize, retentionSeconds := retentionSeconds, nextInternalId := 1
      items := [], memory := memory }, Indexes.init store.indexes.debugBuild store.indexes.indices⟩
  onStorage (onKeyStore diskStorageOpen)
  onStorage (onDataStore diskStorageOpen)
  storageLoad choose

end TheStorage

/-- The calls that change a storage. A restart stops the process and calls `storage_init` on the same directory with
the same configuration. -/
inductive TheStorageOp where
  | write (key : List UInt8) (points : List Point) (choose : Indexes → Nat)
  | sync
  | clean (now : Int)
  | restart (memory : Nat → Nat → UInt8) (choose : Indexes → Nat)

def TheStorageOp.run : TheStorageOp → TheStorageM Unit
  | .write key points choose => do
      let address ← TheStorage.newAddress choose
      let _ ← TheStorage.storageWrite key points address
  | .sync => ignoreCode TheStorage.storageSync
  | .clean now => TheStorage.cleanItems now
  | .restart memory choose => do
      let store ← get
      TheStorage.storageInit store.storage.retentionSeconds store.storage.initialTscBufSize memory choose

/-- Keys have 1 to 1024 bytes. -/
def TheStorageOp.Valid : TheStorageOp → Prop
  | .write key _ _ => ValidKey key
  | _ => True

/-- The runs from an empty directory. -/
inductive TheStorageRun (retentionSeconds : Int) (s : Nat) (debugBuild : Bool) (indices : List CString) :
    TheStorage → Prop
  | init (memory : Nat → Nat → UInt8) (choose : Indexes → Nat) {store : TheStorage}
      (run : TheStorage.storageInit retentionSeconds s memory choose
        ⟨newStorage, Indexes.init debugBuild indices⟩ = .ok () store) :
      TheStorageRun retentionSeconds s debugBuild indices store
  | step {store after : TheStorage} (earlier : TheStorageRun retentionSeconds s debugBuild indices store)
      (op : TheStorageOp) (valid : op.Valid) (run : op.run store = .ok () after) :
      TheStorageRun retentionSeconds s debugBuild indices after

end Menoetius
