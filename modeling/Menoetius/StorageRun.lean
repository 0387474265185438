import Menoetius.StorageOwnWrite

/-
This file describes the runs of a storage, and shows that every block in use belongs to one item.
-/

namespace Menoetius
open LittleEndian

/-- The calls on a storage. A restart stops the process and calls `storage_init` on the same directory with
the same configuration. -/
inductive StorageOp where
  | write (key : List UInt8) (points : List Point)
  | sync
  | clean (now : Int)
  | restart (memory : Nat → Nat → UInt8)

/-- A call returns its code and the points that were stored. -/
def StorageOp.run : StorageOp → StorageM Written
  | .write key points => storageWrite key points
  | .sync => do
      let err ← resultCode storageSync
      pure ⟨[], err⟩
  | .clean now => do
      cleanItems now
      pure ⟨[], none⟩
  | .restart memory => do
      let store ← get
      storageInit store.retentionSeconds store.initialTscBufSize memory
      pure ⟨[], none⟩

/-- Keys have 1 to 1024 bytes and timestamps are positive. -/
def StorageOp.Valid : StorageOp → Prop
  | .write key points => ValidKey key ∧ ∀ point ∈ points, 0 < point.1.toInt
  | _ => True

instance (key : List UInt8) : Decidable (ValidKey key) := inferInstanceAs (Decidable (_ ∧ _))

instance (points : List Point) : Decidable (∀ point ∈ points, 0 < point.1.toInt) := List.decidableBAll _ points

instance : (op : StorageOp) → Decidable op.Valid
  | .write key points =>
      inferInstanceAs (Decidable (ValidKey key ∧ ∀ point ∈ points, 0 < point.1.toInt))
  | .sync => .isTrue trivial
  | .clean _ => .isTrue trivial
  | .restart _ => .isTrue trivial

/-- A call that has returned. -/
structure Event where
  op : StorageOp
  written : Written

/-- The runs from an empty directory, in which every call meets a condition. -/
inductive StorageRun (retentionSeconds : Int) (s : Nat) (allowed : List Event → Storage → StorageOp → Prop) :
    List Event → Storage → Prop
  | init (memory : Nat → Nat → UInt8) {store : Storage}
      (run : storageInit retentionSeconds s memory newStorage = .ok () store) :
      StorageRun retentionSeconds s allowed [] store
  | step {events : List Event} {store after : Storage} (earlier : StorageRun retentionSeconds s allowed events store)
      (op : StorageOp) (meets : allowed events store op) {written : Written}
      (run : op.run store = .ok written after) :
      StorageRun retentionSeconds s allowed (events ++ [⟨op, written⟩]) after

/-- The calls of a list, one after the other. -/
def runOps : List StorageOp → StorageM (List Written)
  | [] => pure []
  | op :: rest => do
      let written ← op.run
      let later ← runOps rest
      pure (written :: later)

/-- The calls of a list after `storage_init` on a directory. -/
def initAndRun (retentionSeconds : Int) (s : Nat) (ops : List StorageOp) : StorageM (List Written) := do
  storageInit retentionSeconds s fun _ _ => 0
  runOps ops

section
variable {retentionSeconds : Int} {s : Nat} {allowed : List Event → Storage → StorageOp → Prop}

theorem StorageRun.of_runOps (ops : List StorageOp) :
    ∀ {events : List Event} {store after : Storage} {results : List Written},
      StorageRun retentionSeconds s allowed events store → (∀ op ∈ ops, ∀ events store, allowed events store op) →
      runOps ops store = .ok results after →
      StorageRun retentionSeconds s allowed (events ++ List.zipWith Event.mk ops results) after := by
  induction ops with
  | nil =>
      intro events store after results earlier _ run
      cases run
      rw [List.zipWith_nil_left, List.append_nil]
      exact earlier
  | cons op rest ih =>
      intro events store after results earlier meets run
      obtain ⟨first, others⟩ := List.forall_mem_cons.mp meets
      obtain ⟨written, middle, done, run⟩ := EStateM.of_bind_ok run
      obtain ⟨later, final, more, run⟩ := EStateM.of_bind_ok run
      cases run
      have next := ih (earlier.step op (first _ _) done) others more
      rwa [List.append_assoc] at next

/-- A list of calls that returns is a run. -/
theorem StorageRun.of_init {ops : List StorageOp} {results : List Written} {after : Storage}
    (meets : ∀ op ∈ ops, ∀ events store, allowed events store op)
    (run : initAndRun retentionSeconds s ops newStorage = .ok results after) :
    StorageRun retentionSeconds s allowed (List.zipWith Event.mk ops results) after := by
  obtain ⟨_, store, opened, run⟩ := EStateM.of_bind_ok run
  exact StorageRun.of_runOps ops (.init _ opened) meets run

end

/-- How a call can fail to return. -/
def StorageOp.Fails (s : Nat) (stops : Abort → Prop) (keyBlocks dataBlocks : List Block) (failure : Failure) :
    StorageOp → Prop
  | .write _ _ => (∃ site, failure = .abort site ∧ stops site) ∨ NewItemStops s failure
  | .sync => ∃ site, failure = .abort site ∧ stops site
  | .clean _ => False
  | .restart _ => LoadFails keyBlocks dataBlocks failure

section
variable {keeps : (Nat → Option Block) → StorageItem → Prop} {stops : Abort → Prop} {store : Storage}
  {keyBlocks dataBlocks : List Block}

/-- A call keeps the storage. For a restart, the items made from the blocks must be kept ones. -/
theorem StorageOp.run_kept (law : ItemLaw store.initialTscBufSize keeps stops) (large : 4 < store.initialTscBufSize)
    (holds : StorageHolds keeps store keyBlocks dataBlocks) (op : StorageOp) (valid : op.Valid)
    (reload : ∀ memory, op = .restart memory → ∀ item, Reloaded store.initialTscBufSize (blockAt dataBlocks) item →
      keeps (blockAt dataBlocks) item) :
    op.run.Ends store
      (fun _ after => SameConfig store after ∧ ∃ names later, StorageHolds keeps after names later)
      (fun failure _ => op.Fails store.initialTscBufSize stops keyBlocks dataBlocks failure) := by
  cases op with
  | write key points =>
      apply (storageWrite_kept law large holds valid.1 points valid.2).mono
      · rintro _ after ⟨same, kept⟩
        exact ⟨same.toSameConfig, kept⟩
      · exact fun _ _ stopped => stopped
  | sync =>
      have ends : (resultCode storageSync).Ends store
          (fun _ after => SameConfig store after ∧ ∃ names later, StorageHolds keeps after names later)
          (fun failure _ => ∃ site, failure = .abort site ∧ stops site) := by
        apply resultCode_ends
        apply (storageSync_kept law holds).mono
        · rintro _ after ⟨same, later, kept⟩
          exact ⟨same.toSameConfig, keyBlocks, later, kept⟩
        · intro failure after stopped
          cases failure with
          | code err =>
              obtain ⟨same, later, kept⟩ := stopped
              exact ⟨same.toSameConfig, keyBlocks, later, kept⟩
          | abort site => exact ⟨site, rfl, stopped⟩
      apply EStateM.Ends.bind ends
      intro err after kept
      exact EStateM.ends_of_ok rfl kept
  | clean now =>
      obtain ⟨after, names, later, run, kept, same, _⟩ := cleanItems_run (law.clean _) holds
      apply EStateM.ends_bind_ok run
      exact EStateM.ends_of_ok rfl ⟨same, names, later, kept⟩
  | restart memory =>
      apply EStateM.ends_bind_ok (EStateM.get_apply store)
      apply EStateM.Ends.bind (storageInit_kept law holds memory)
      rintro _ after ⟨same, names, loaded, _⟩
      exact EStateM.ends_of_ok rfl ⟨same, names, dataBlocks, loaded.mono fun item _ made => reload memory rfl item made⟩

end

/-- A run keeps what its calls keep. -/
theorem StorageRun.kept {keeps : (Nat → Option Block) → StorageItem → Prop} {stops : Abort → Prop}
    {retentionSeconds : Int} {s : Nat} {allowed : List Event → Storage → StorageOp → Prop} {events : List Event}
    {store : Storage} (law : ItemLaw s keeps stops) (large : 4 < s)
    (run : StorageRun retentionSeconds s allowed events store)
    (valid : ∀ events store op, allowed events store op → op.Valid)
    (reload : ∀ events store memory keyBlocks dataBlocks, allowed events store (.restart memory) →
      StorageHolds keeps store keyBlocks dataBlocks → ∀ item, Reloaded s (blockAt dataBlocks) item →
      keeps (blockAt dataBlocks) item) :
    store.initialTscBufSize = s ∧ ∃ names later, StorageHolds keeps store names later := by
  induction run with
  | @init memory store run =>
      obtain ⟨after, names, again, size, _, none, holds⟩ := storageInit_new retentionSeconds s memory
      rw [run] at again
      obtain rfl : store = after := by
        cases again
        rfl
      refine ⟨size, names, [], holds.mono ?_⟩
      intro item member
      rw [none] at member
      cases member
  | @step events store after earlier op meets written run ih =>
      obtain ⟨size, names, later, holds⟩ := ih
      subst size
      obtain ⟨same, kept⟩ := (op.run_kept law large holds (valid _ _ _ meets) (by
        rintro memory rfl
        exact reload _ _ _ _ _ meets holds)).of_ok run
      exact ⟨same.initialTscBufSize, kept⟩

/-- The block at an offset, when it is `VALID` or `ACTIVE`. -/
def LiveAt (disk : DiskStorage) (offset : Nat) (block : Block) : Prop :=
  blockAt (blocksOf disk.fd.bytes) offset = some block ∧ block.Live

/-- Every block in use belongs to one item, and every item refers to blocks in use only. -/
structure BlocksOwned (store : Storage) : Prop where
  data : ∀ offset block, LiveAt store.dataDiskStore offset block →
    (store.items.flatMap fun item => item.dataOffsets.map OffsetAndTime.offset).count offset = 1 ∧
      ∃ item ∈ store.items, offset ∈ item.dataOffsets.map OffsetAndTime.offset ∧ carriedId block = item.internalId
  key : ∀ offset block, LiveAt store.keyDiskStore offset block →
    (store.items.map StorageItem.keyStorageOffset).count offset = 1 ∧
      ∃ item ∈ store.items, item.keyStorageOffset = offset ∧ item.key = some (blockKey block) ∧
        blockKeyId block = item.internalId
  dataInUse : ∀ item ∈ store.items, ∀ entry ∈ item.dataOffsets, entry.offset ≠ 0 →
    ∃ block, LiveAt store.dataDiskStore entry.offset block
  keyInUse : ∀ item ∈ store.items, ∃ block, LiveAt store.keyDiskStore item.keyStorageOffset block
  dataFree : ∀ pool chain, FreeChain (blockAt (blocksOf store.dataDiskStore.fd.bytes)) pool
      (store.dataDiskStore.nextFreeBlock pool) chain →
    ∀ item ∈ store.items, ∀ entry ∈ item.dataOffsets, entry.offset ∉ chain
  keyFree : ∀ pool chain, FreeChain (blockAt (blocksOf store.keyDiskStore.fd.bytes)) pool
      (store.keyDiskStore.nextFreeBlock pool) chain → ∀ item ∈ store.items, item.keyStorageOffset ∉ chain
  ids : (store.items.map StorageItem.internalId).Nodup
  below : ∀ item ∈ store.items, item.internalId < store.nextInternalId

theorem count_flatMap_one {α : Type} {f : α → List Nat} {items : List α} {item : α} {place : Nat}
    (distinct : items.Nodup) (member : item ∈ items) (once : (f item).count place = 1)
    (others : ∀ other ∈ items, other ≠ item → place ∉ f other) : (items.flatMap f).count place = 1 := by
  obtain ⟨front, rest, split⟩ := List.append_of_mem member
  have outside : ∀ part : List α, (∀ other ∈ part, place ∉ f other) → (part.flatMap f).count place = 0 := by
    intro part absent
    rw [List.count_eq_zero, List.mem_flatMap]
    rintro ⟨other, present, inside⟩
    exact absent other present inside
  rw [split, List.nodup_append, List.nodup_cons] at distinct
  rw [split] at others
  rw [split, List.flatMap_append, List.flatMap_cons, List.count_append, List.count_append, once,
    outside front, outside rest]
  · intro other present
    refine others other (by simp [present]) ?_
    rintro rfl
    exact distinct.2.1.1 present
  · intro other present
    refine others other (by simp [present]) ?_
    rintro rfl
    exact distinct.2.2 _ present _ List.mem_cons_self rfl

section
variable {store : Storage} {keyBlocks dataBlocks : List Block}

theorem DiskHolds.liveAt_iff {disk : DiskStorage} {blocks : List Block} (holds : DiskHolds disk blocks) {offset : Nat}
    {block : Block} : LiveAt disk offset block ↔ blockAt blocks offset = some block ∧ block.Live := by
  rw [LiveAt, holds.toDiskFiles.blocksOf]

/-- A block in use is on no free list. -/
theorem DiskHolds.notFree {disk : DiskStorage} {blocks : List Block} (holds : DiskHolds disk blocks) {offset : Nat}
    {block : Block} (found : blockAt blocks offset = some block) (live : block.Live) {pool : Nat} {chain : List Nat}
    (linked : FreeChain (blockAt (blocksOf disk.fd.bytes)) pool (disk.nextFreeBlock pool) chain) :
    offset ∉ chain := by
  intro member
  rw [holds.toDiskFiles.blocksOf] at linked
  obtain ⟨other, there, empty, _⟩ := linked.empty member
  rw [found] at there
  rw [← Option.some.inj there] at empty
  rcases live with status | status <;> rw [empty] at status <;> cases status

/-- The items of a storage own the blocks of its stores. -/
theorem StorageHolds.blocksOwned {s : Nat} (holds : StorageHolds (ItemOwns s) store keyBlocks dataBlocks) :
    BlocksOwned store := by
  have distinct : store.items.Nodup := List.Nodup.of_map _ holds.ids
  have zero := blockAt_zero dataBlocks
  refine
    { data := ?_
      key := ?_
      dataInUse := ?_
      keyInUse := ?_
      dataFree := ?_
      keyFree := ?_
      ids := holds.ids
      below := holds.below }
  · intro offset block used
    obtain ⟨found, live⟩ := holds.dataDisk.liveAt_iff.mp used
    obtain ⟨item, member, carried⟩ := holds.dataOwned offset block found live
    have owns := holds.items item member
    have inside := owns.owned offset block found live carried
    refine ⟨count_flatMap_one distinct member (List.count_eq_one_of_mem owns.distinct inside) ?_,
      item, member, inside, carried⟩
    intro other present different there
    obtain ⟨entry, entryIn, same⟩ := List.mem_map.mp there
    have nonzero : entry.offset ≠ 0 := by
      rintro none
      rw [← same, none, zero] at found
      cases found
    have small := (holds.items other present).small
    obtain ⟨again, _, _, here, data⟩ := (holds.items other present).entries entry entryIn nonzero
    rw [same, found] at here
    rw [← Option.some.inj here] at data
    rw [data.carries (by omega)] at carried
    exact different (eq_of_nodup_map holds.ids present member carried)
  · intro offset block used
    obtain ⟨found, live⟩ := holds.keyDisk.liveAt_iff.mp used
    obtain ⟨item, member, rfl⟩ := holds.keyOwned offset block found live
    obtain ⟨again, here, _, id, named, _⟩ := holds.keyBlock member
    rw [found] at here
    rw [← Option.some.inj here] at id named
    refine ⟨?_, item, member, rfl, named, id⟩
    rw [List.map_eq_flatMap]
    apply count_flatMap_one distinct member (by simp)
    intro other present different there
    exact different (holds.keyPlace present member (List.mem_singleton.mp there).symm)
  · intro item member entry inside nonzero
    obtain ⟨block, _, _, found, data⟩ := (holds.items item member).entries entry inside nonzero
    exact ⟨block, holds.dataDisk.liveAt_iff.mpr ⟨found, data.live⟩⟩
  · intro item member
    obtain ⟨block, found, live, _⟩ := holds.keyBlock member
    exact ⟨block, holds.keyDisk.liveAt_iff.mpr ⟨found, live⟩⟩
  · intro pool chain linked item member entry inside
    by_cases none : entry.offset = 0
    · intro present
      rw [holds.dataDisk.toDiskFiles.blocksOf] at linked
      obtain ⟨other, there, _⟩ := linked.empty present
      rw [none, zero] at there
      cases there
    · obtain ⟨block, _, _, found, data⟩ := (holds.items item member).entries entry inside none
      exact holds.dataDisk.notFree found data.live linked
  · intro pool chain linked item member
    obtain ⟨block, found, live, _⟩ := holds.keyBlock member
    exact holds.keyDisk.notFree found live linked

end

/-- In every run, whatever the order of the points, every block in use belongs to one item. -/
theorem storageRun_blocksOwned {retentionSeconds : Int} {s : Nat} {events : List Event} {store : Storage}
    (large : 4 < s) (run : StorageRun retentionSeconds s (fun _ _ op => op.Valid) events store) :
    BlocksOwned store := by
  obtain ⟨_, names, later, holds⟩ := run.kept (ownLaw s) large (fun _ _ _ valid => valid)
    fun _ _ _ _ dataBlocks _ _ item made => made.owns (blockAt_zero dataBlocks)
  exact holds.blocksOwned

/-- One key expires, and another one has a block. -/
theorem storageRun_blocksOwned_cleaned :
    ∃ events store, StorageRun 10 64 (fun _ _ op => op.Valid) events store ∧
      store.items.map StorageItem.key = [some [98]] ∧ BlocksOwned store := by
  have passed : (initAndRun 10 64 [.write [97] [(5#64, 7#64)], .write [98] [(30#64, 7#64)], .sync,
      .restart fun _ _ => 0, .clean 20] newStorage).passes
        (fun _ store => store.items.map StorageItem.key = [some [98]]) = true := by
    decide +kernel
  obtain ⟨results, store, run, items⟩ := EStateM.Result.of_passes passed
  have valid : ∀ op ∈ [StorageOp.write [97] [(5#64, 7#64)], .write [98] [(30#64, 7#64)], .sync,
      .restart fun _ _ => 0, .clean 20], op.Valid := by
    decide
  have reached := StorageRun.of_init (fun op member _ _ => valid op member) run
  exact ⟨_, store, reached, by simpa using items, storageRun_blocksOwned (by decide) reached⟩

end Menoetius
