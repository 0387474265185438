import Menoetius.StorageOwn

/-
This file follows `clean_items`, which trims the items that have new points and deletes the others.
-/

namespace Menoetius
open LittleEndian

/-- The blocks at these places have been released, and the others are as before. -/
structure BlocksReleased (places : List Nat) (content later : Nat → Option Block) : Prop where
  gone : ∀ place ∈ places, ∃ empty, later place = some empty ∧ empty.status = .empty
  kept : ∀ place, place ∉ places → later place = content place
  bounded : ∀ bound, Bounded bound content → Bounded bound later

section
variable {places : List Nat} {content later : Nat → Option Block} {place : Nat} {block : Block}

theorem BlocksReleased.refl (content : Nat → Option Block) : BlocksReleased [] content content :=
  ⟨by simp, fun _ _ => rfl, fun _ bounded => bounded⟩

/-- A block in use after the release was in use before it. -/
theorem BlocksReleased.live (released : BlocksReleased places content later) (found : later place = some block)
    (live : block.Live) : place ∉ places ∧ content place = some block := by
  have outside : place ∉ places := by
    intro member
    obtain ⟨empty, there, status⟩ := released.gone place member
    rw [found] at there
    rw [← Option.some.inj there] at status
    rcases live with alive | alive <;> rw [status] at alive <;> cases alive
  exact ⟨outside, by rw [← released.kept place outside, found]⟩

/-- Only blocks of one item are released. -/
theorem BlocksReleased.frame (released : BlocksReleased places content later) {internalId : Nat}
    (own : ∀ place ∈ places, ∀ block, content place = some block → block.Live → carriedId block = internalId) :
    Frame internalId content later := by
  constructor
  · intro place block found live other
    rw [released.kept, found]
    intro member
    exact other (own place member block found live)
  · intro place block found live _
    exact (released.live found live).2

end

/-- A list of blocks in use is released one by one. -/
theorem trimBlocks_run (entries : List OffsetAndTime) :
    ∀ {disk : DiskStorage} {blocks : List Block}, DiskHolds disk blocks → disk.numBeforeCrash = none →
      (entries.map OffsetAndTime.offset).Nodup →
      (∀ entry ∈ entries, ∃ block, blockAt blocks entry.offset = some block ∧ block.Live) →
      ∃ after later, trimBlocks entries disk = .ok () after ∧ DiskHolds after later ∧ after.numBeforeCrash = none ∧
        BlocksReleased (entries.map OffsetAndTime.offset) (blockAt blocks) (blockAt later) := by
  induction entries with
  | nil =>
      intro disk blocks holds quiet _ _
      exact ⟨disk, blocks, rfl, holds, quiet, .refl _⟩
  | cons entry rest ih =>
      intro disk blocks holds quiet distinct live
      obtain ⟨⟨block, found, alive⟩, others⟩ := List.forall_mem_cons.mp live
      rw [List.map_cons, List.nodup_cons] at distinct
      have used : block.status ≠ .empty := by
        rcases alive with status | status <;> rw [status] <;> simp
      obtain ⟨middle, blocks', empty, run, held, calm, changed, status, pool, _⟩ :=
        holds.releaseBlock quiet found used
      have there : ∀ other ∈ rest, ∃ block, blockAt blocks' other.offset = some block ∧ block.Live := by
        intro other member
        obtain ⟨kept, here, alive⟩ := others other member
        refine ⟨kept, ?_, alive⟩
        rw [changed, Function.update_of_ne, here]
        intro same
        exact distinct.1 (List.mem_map.mpr ⟨other, member, same⟩)
      obtain ⟨after, later, more, final, silent, released⟩ := ih held calm distinct.2 there
      refine ⟨after, later, ?_, final, silent, ?_, ?_, ?_⟩
      · unfold trimBlocks
        rw [EStateM.bind_ok (resultCode_ok run)]
        exact more
      · intro place member
        rcases List.mem_cons.mp member with rfl | inside
        · refine ⟨empty, ?_, status⟩
          rw [released.kept _ distinct.1, changed, Function.update_self]
        · exact released.gone place inside
      · intro place outside
        rw [List.map_cons, List.mem_cons, not_or] at outside
        rw [released.kept place outside.2, changed, Function.update_of_ne outside.1]
      · intro bound bounded
        apply released.bounded
        rw [changed]
        exact bounded.update (by rw [pool]; exact bounded _ _ found)

/-- An item that is deleted releases the blocks that it has on disk. -/
theorem deleteBlocks_eq (entries : List OffsetAndTime) (zeroLast : ∀ entry ∈ entries.dropLast, entry.offset ≠ 0) :
    deleteBlocks entries = trimBlocks (entries.filter fun entry => entry.offset ≠ 0) := by
  induction entries with
  | nil => rfl
  | cons entry rest ih =>
      unfold deleteBlocks
      cases rest with
      | nil =>
          by_cases zero : entry.offset = 0
          · rw [if_pos zero, List.filter_cons_of_neg (by simpa using zero)]
            rfl
          · rw [if_neg zero, List.filter_cons_of_pos (by simpa using zero)]
            rfl
      | cons next more =>
          rw [List.dropLast_cons_cons] at zeroLast
          obtain ⟨nonzero, others⟩ := List.forall_mem_cons.mp zeroLast
          rw [if_neg nonzero, List.filter_cons_of_pos (by simpa using nonzero), ih others]
          rfl

/-- The leading entries with an old start time. -/
def oldEntries (t : Int) (entries : List OffsetAndTime) : List OffsetAndTime :=
  entries.takeWhile fun entry => entry.offset ≠ 0 ∧ entry.startTime.toInt < t

/-- The number of entries that are trimmed. The last old one may have new points too. -/
def trimCount (t : Int) (entries : List OffsetAndTime) : Nat := (oldEntries t entries).length - 1

theorem trimIndex_run (t : Int) (entries : List OffsetAndTime)
    (zeroLast : ∀ entry ∈ entries.dropLast, entry.offset ≠ 0) (state : ItemStore) :
    ∀ i saveI, trimIndex t i saveI entries state =
      .ok (if oldEntries t entries = [] then saveI else i + trimCount t entries) state := by
  induction entries with
  | nil =>
      intro i saveI
      rfl
  | cons entry rest ih =>
      intro i saveI
      unfold trimIndex
      by_cases zero : entry.offset = 0
      · have last : rest = [] := by
          cases rest with
          | nil => rfl
          | cons next more => exact absurd zero (zeroLast entry (by rw [List.dropLast_cons_cons]; exact List.mem_cons_self))
        rw [if_pos zero, require_bind last, oldEntries, List.takeWhile_cons_of_neg (by simp [zero]), if_pos rfl]
        rfl
      rw [if_neg zero]
      by_cases old : entry.startTime.toInt < t
      · have others : ∀ entry ∈ rest.dropLast, entry.offset ≠ 0 := by
          intro other member
          cases rest with
          | nil => cases member
          | cons next more => exact zeroLast other (by rw [List.dropLast_cons_cons]; exact List.mem_cons_of_mem _ member)
        have first : oldEntries t (entry :: rest) = entry :: oldEntries t rest := by
          rw [oldEntries, List.takeWhile_cons_of_pos (by simpa using ⟨zero, old⟩)]
          rfl
        have count : trimCount t (entry :: rest) = (oldEntries t rest).length := by
          rw [trimCount, first, List.length_cons, Nat.add_sub_cancel]
        rw [if_pos old, ih others, first, count, if_neg (List.cons_ne_nil _ _)]
        by_cases none : oldEntries t rest = []
        · rw [if_pos none, none]
          rfl
        · have positive := List.length_pos_of_ne_nil none
          rw [if_neg none, trimCount]
          congr 1
          omega
      · rw [if_neg old, oldEntries, List.takeWhile_cons_of_neg (by simpa [zero] using old), if_pos rfl]
        rfl

/-- The item without its old blocks. -/
def StorageItem.trimmed (t : Int) (item : StorageItem) : StorageItem :=
  { item with dataOffsets := item.dataOffsets.drop (trimCount t item.dataOffsets) }

/-- The last point of the item is old. -/
def StorageItem.Expired (t : Int) (item : StorageItem) : Prop := item.data.lastTimestamp.toInt < t

instance (t : Int) (item : StorageItem) : Decidable (item.Expired t) := inferInstanceAs (Decidable (_ < _))

/-- The places of the blocks that are trimmed. -/
def StorageItem.trimPlaces (t : Int) (item : StorageItem) : List Nat :=
  (item.dataOffsets.take (trimCount t item.dataOffsets)).map OffsetAndTime.offset

theorem trimCount_lt (t : Int) {entries : List OffsetAndTime} (some : entries ≠ []) :
    trimCount t entries < entries.length := by
  have positive := List.length_pos_of_ne_nil some
  have fewer : (oldEntries t entries).length ≤ entries.length := (List.takeWhile_sublist _).length_le
  unfold trimCount
  omega

section
variable {s : Nat} {blocks : List Block} {state : ItemStore} {t : Int} {item : StorageItem}
  {content later : Nat → Option Block}

theorem storageTrimAndWriteToDisk_expired (expired : state.item.Expired t) :
    storageTrimAndWriteToDisk t state = .ok true state := by
  unfold storageTrimAndWriteToDisk
  rw [EStateM.bind_ok (EStateM.get_apply state)]
  dsimp only
  rw [if_pos (by exact expired)]
  rfl

/-- The entries that are trimmed are of blocks on disk. -/
theorem trim_nonzero {entry : OffsetAndTime}
    (member : entry ∈ item.dataOffsets.take (trimCount t item.dataOffsets)) : entry.offset ≠ 0 := by
  have old : entry ∈ oldEntries t item.dataOffsets := by
    have part : item.dataOffsets.take (trimCount t item.dataOffsets) <+: oldEntries t item.dataOffsets := by
      have whole : oldEntries t item.dataOffsets <+: item.dataOffsets := List.takeWhile_prefix _
      apply List.prefix_of_prefix_length_le (List.take_prefix _ _) whole
      rw [List.length_take, trimCount]
      omega
    exact part.subset member
  have nonzero := List.all_eq_true.mp List.all_takeWhile entry old
  simp only [ne_eq, decide_eq_true_eq] at nonzero
  exact nonzero.1

/-- The trim releases the old blocks and forgets them. -/
theorem storageTrimAndWriteToDisk_run (owns : ItemOwns s (blockAt blocks) state.item)
    (disk : DiskHolds state.dataDiskStore blocks) (quiet : state.dataDiskStore.numBeforeCrash = none)
    (alive : ¬ state.item.Expired t) :
    ∃ after later, storageTrimAndWriteToDisk t state = .ok false ⟨state.item.trimmed t, after⟩ ∧
      DiskHolds after later ∧ after.numBeforeCrash = none ∧
      BlocksReleased (state.item.trimPlaces t) (blockAt blocks) (blockAt later) := by
  have index : trimIndex t 0 0 state.item.dataOffsets state = .ok (trimCount t state.item.dataOffsets) state := by
    rw [trimIndex_run t _ owns.zeroLast state]
    split
    · rename_i none
      rw [trimCount, none]
      rfl
    · rw [Nat.zero_add]
  have live : ∀ entry ∈ state.item.dataOffsets.take (trimCount t state.item.dataOffsets),
      ∃ block, blockAt blocks entry.offset = some block ∧ block.Live := by
    intro entry member
    obtain ⟨block, _, _, found, data⟩ := owns.entries entry (List.mem_of_mem_take member) (trim_nonzero member)
    exact ⟨block, found, data.live⟩
  have distinct : (state.item.trimPlaces t).Nodup := owns.distinct.sublist ((List.take_sublist _ _).map _)
  unfold storageTrimAndWriteToDisk
  rw [EStateM.bind_ok (EStateM.get_apply state)]
  dsimp only
  rw [if_neg (by exact alive), EStateM.bind_ok index]
  by_cases some : 0 < trimCount t state.item.dataOffsets
  · obtain ⟨after, later, run, held, calm, released⟩ := trimBlocks_run _ disk quiet distinct live
    refine ⟨after, later, ?_, held, calm, released⟩
    have nonempty : state.item.dataOffsets ≠ [] := by
      intro none
      rw [none] at some
      exact absurd some (Nat.lt_irrefl 0)
    have fewer := trimCount_lt t nonempty
    rw [if_pos some, EStateM.bind_ok (onBlocks_ok run), require_bind (by omega)]
    rfl
  · have none : trimCount t state.item.dataOffsets = 0 := by omega
    refine ⟨state.dataDiskStore, blocks, ?_, disk, quiet, ?_⟩
    · rw [if_neg some, StorageItem.trimmed, none, List.drop_zero]
      rfl
    · rw [StorageItem.trimPlaces, none]
      exact .refl _

/-- The blocks that are trimmed carry the internal id of the item. -/
theorem ItemOwns.trim_own (owns : ItemOwns s content item) :
    ∀ place ∈ item.trimPlaces t, ∀ block, content place = some block → block.Live →
      carriedId block = item.internalId := by
  intro place member block found _
  have small := owns.small
  obtain ⟨entry, inside, rfl⟩ := List.mem_map.mp member
  obtain ⟨other, _, _, there, data⟩ := owns.entries entry (List.mem_of_mem_take inside) (trim_nonzero inside)
  rw [found] at there
  rw [Option.some.inj there]
  exact data.carries (by omega)

/-- A place is trimmed or stays. -/
theorem mem_trimmed_or {place : Nat} (member : place ∈ item.dataOffsets.map OffsetAndTime.offset) :
    place ∈ item.trimPlaces t ∨ place ∈ (item.trimmed t).dataOffsets.map OffsetAndTime.offset := by
  rw [← List.take_append_drop (trimCount t item.dataOffsets) item.dataOffsets, List.map_append] at member
  exact List.mem_append.mp member

theorem trimmed_disjoint (distinct : (item.dataOffsets.map OffsetAndTime.offset).Nodup) {place : Nat}
    (member : place ∈ (item.trimmed t).dataOffsets.map OffsetAndTime.offset) : place ∉ item.trimPlaces t := by
  rw [← List.take_append_drop (trimCount t item.dataOffsets) item.dataOffsets, List.map_append,
    List.nodup_append] at distinct
  exact fun trimmed => distinct.2.2 place trimmed place member rfl

/-- The item still owns its other blocks. -/
theorem ItemOwns.trimmed (owns : ItemOwns s content item)
    (released : BlocksReleased (item.trimPlaces t) content later) : ItemOwns s later (item.trimmed t) := by
  refine
    { small := owns.small
      stream := owns.stream
      dataLen := owns.dataLen
      entries := ?_
      zeroLast := ?_
      distinct := owns.distinct.sublist ((List.drop_sublist _ _).map _)
      owned := ?_ }
  · intro entry member nonzero
    obtain ⟨block, complete, points, found, data⟩ := owns.entries entry (List.mem_of_mem_drop member) nonzero
    refine ⟨block, complete, points, ?_, data⟩
    rw [released.kept _ (trimmed_disjoint owns.distinct (List.mem_map_of_mem member)), found]
  · intro entry member
    change entry ∈ (item.dataOffsets.drop _).dropLast at member
    rw [List.dropLast_drop_eq_drop_dropLast] at member
    exact owns.zeroLast entry (List.mem_of_mem_drop member)
  · intro offset block found live carried
    obtain ⟨outside, there⟩ := released.live found live
    rcases mem_trimmed_or (owns.owned offset block there live carried) with trimmed | stays
    · exact absurd trimmed outside
    · exact stays

end

section
variable {keeps kept : (Nat → Option Block) → StorageItem → Prop} {store : Storage}
  {keyBlocks dataBlocks names later : List Block} {item : StorageItem}

/-- The storage without one item. -/
def Storage.without (store : Storage) (internalId : Nat) (keyDisk dataDisk : DiskStorage) : Storage :=
  { store with
    items := store.items.filter fun item => item.internalId ≠ internalId
    keyDiskStore := keyDisk
    dataDiskStore := dataDisk }

/-- The blocks of an item that is deleted are released in both stores. -/
structure ItemReleased (item : StorageItem) (keyBlocks dataBlocks names later : List Block)
    (keyDisk dataDisk : DiskStorage) : Prop where
  keyHeld : DiskHolds keyDisk names
  keyQuiet : keyDisk.numBeforeCrash = none
  dataHeld : DiskHolds dataDisk later
  dataQuiet : dataDisk.numBeforeCrash = none
  key : BlocksReleased [item.keyStorageOffset] (blockAt keyBlocks) (blockAt names)
  data : BlocksReleased ((item.dataOffsets.filter fun entry => entry.offset ≠ 0).map OffsetAndTime.offset)
    (blockAt dataBlocks) (blockAt later)

/-- The blocks on disk of an item carry its internal id. -/
theorem ItemOwns.own {s : Nat} {content : Nat → Option Block} (owns : ItemOwns s content item) :
    ∀ place ∈ (item.dataOffsets.filter fun entry => entry.offset ≠ 0).map OffsetAndTime.offset,
      ∃ block, content place = some block ∧ block.Live ∧ carriedId block = item.internalId := by
  intro place member
  have small := owns.small
  obtain ⟨entry, inside, rfl⟩ := List.mem_map.mp member
  obtain ⟨present, nonzero⟩ := List.mem_filter.mp inside
  obtain ⟨block, _, _, found, data⟩ := owns.entries entry present (by simpa using nonzero)
  exact ⟨block, found, data.live, data.carries (by omega)⟩

theorem ItemReleased.frame {keyDisk dataDisk : DiskStorage} {s : Nat}
    (released : ItemReleased item keyBlocks dataBlocks names later keyDisk dataDisk)
    (owns : ItemOwns s (blockAt dataBlocks) item) : Frame item.internalId (blockAt dataBlocks) (blockAt later) := by
  apply released.data.frame
  intro place member block found _
  obtain ⟨other, there, _, carried⟩ := owns.own place member
  rw [found] at there
  rw [Option.some.inj there]
  exact carried

/-- Two items do not share a key block. -/
theorem KeysHold.keyPlace (holds : KeysHold store keyBlocks) {first second : StorageItem}
    (firstIn : first ∈ store.items) (secondIn : second ∈ store.items)
    (same : first.keyStorageOffset = second.keyStorageOffset) : first = second := by
  obtain ⟨block, found, _, id, _⟩ := holds.keyBlock firstIn
  obtain ⟨other, there, _, id', _⟩ := holds.keyBlock secondIn
  rw [same, there] at found
  rw [← Option.some.inj found, id'] at id
  exact eq_of_nodup_map holds.ids firstIn secondIn id.symm

theorem StorageHolds.keyPlace (holds : StorageHolds keeps store keyBlocks dataBlocks) {first second : StorageItem}
    (firstIn : first ∈ store.items) (secondIn : second ∈ store.items)
    (same : first.keyStorageOffset = second.keyStorageOffset) : first = second :=
  holds.keysHold.keyPlace firstIn secondIn same

/-- The key of an item that is deleted is released. -/
theorem KeysHold.without {keyDisk dataDisk : DiskStorage} (holds : KeysHold store keyBlocks)
    (member : item ∈ store.items) (held : DiskHolds keyDisk names) (quiet : keyDisk.numBeforeCrash = none)
    (released : BlocksReleased [item.keyStorageOffset] (blockAt keyBlocks) (blockAt names)) :
    KeysHold (store.without item.internalId keyDisk dataDisk) names := by
  have members : ∀ other, other ∈ (store.without item.internalId keyDisk dataDisk).items ↔
      other ∈ store.items ∧ other.internalId ≠ item.internalId := fun other => mem_filter_id other
  refine
    { keyDisk := held
      keyQuiet := quiet
      ids := holds.ids.sublist (List.filter_sublist.map _)
      below := fun other present => holds.below other ((members other).mp present).1
      next := holds.next
      keys := ?_
      keysDistinct := holds.keysDistinct.sublist (List.filter_sublist.map _)
      keyOwned := ?_
      keyBounded := released.bounded _ holds.keyBounded }
  · intro other present
    obtain ⟨old, elsewhere⟩ := (members other).mp present
    obtain ⟨key, named, valid, block, found, keyBlock⟩ := holds.keys other old
    refine ⟨key, named, valid, block, ?_, keyBlock⟩
    rw [released.kept, found]
    intro here
    exact elsewhere (congrArg _ (holds.keyPlace old member (List.mem_singleton.mp here)))
  · intro offset block found live
    obtain ⟨outside, there⟩ := released.live found live
    obtain ⟨other, old, place⟩ := holds.keyOwned offset block there live
    refine ⟨other, (members other).mpr ⟨old, ?_⟩, place⟩
    intro same
    rw [eq_of_nodup_map holds.ids old member same] at place
    exact outside (List.mem_singleton.mpr place.symm)

/-- Deleting an item keeps the storage. -/
theorem StorageHolds.without {keyDisk dataDisk : DiskStorage} {s : Nat}
    (holds : StorageHolds keeps store keyBlocks dataBlocks) (member : item ∈ store.items)
    (owns : ItemOwns s (blockAt dataBlocks) item)
    (released : ItemReleased item keyBlocks dataBlocks names later keyDisk dataDisk)
    (others : ∀ other ∈ store.items, other.internalId ≠ item.internalId → keeps (blockAt dataBlocks) other →
      kept (blockAt later) other) :
    StorageHolds kept (store.without item.internalId keyDisk dataDisk) names later := by
  have members : ∀ other, other ∈ (store.without item.internalId keyDisk dataDisk).items ↔
      other ∈ store.items ∧ other.internalId ≠ item.internalId := fun other => mem_filter_id other
  have keys : KeysHold (store.without item.internalId keyDisk dataDisk) names :=
    holds.keysHold.without member released.keyHeld released.keyQuiet released.key
  refine
    { keys with
      dataDisk := released.dataHeld
      dataQuiet := released.dataQuiet
      items := ?_
      dataOwned := ?_
      dataBounded := released.data.bounded _ holds.dataBounded }
  · intro other present
    obtain ⟨old, elsewhere⟩ := (members other).mp present
    exact others other old elsewhere (holds.items other old)
  · intro offset block found live
    obtain ⟨outside, there⟩ := released.data.live found live
    obtain ⟨other, old, carried⟩ := holds.dataOwned offset block there live
    refine ⟨other, (members other).mpr ⟨old, ?_⟩, carried⟩
    intro same
    obtain ⟨entry, inside, rfl⟩ := List.mem_map.mp (owns.owned offset block there live (carried.trans same))
    refine outside (List.mem_map_of_mem (List.mem_filter.mpr ⟨inside, ?_⟩))
    have least := blockAt_ge there
    unfold storageInitialReserved at least
    simp only [ne_eq, decide_eq_true_eq]
    omega

theorem resultCode_onKeyStore {action : DiskM Unit} {code : Option Err} {after : DiskStorage}
    (run : resultCode action store.keyDiskStore = .ok code after) :
    resultCode (onKeyStore action) store = .ok code { store with keyDiskStore := after } := by
  unfold resultCode onKeyStore at *
  cases result : action store.keyDiskStore with
  | ok value final =>
      rw [result] at run
      cases run
      rfl
  | error failure final =>
      rw [result] at run
      cases failure with
      | code err =>
          cases run
          rfl
      | abort site => cases run

/-- `storage_delete_item` releases all blocks of the item. -/
theorem storageDeleteItem_run {s : Nat} (holds : StorageHolds keeps store keyBlocks dataBlocks)
    (member : item ∈ store.items) (owns : ItemOwns s (blockAt dataBlocks) item) :
    ∃ keyDisk dataDisk names later,
      storageDeleteItem item.internalId store = .ok () (store.without item.internalId keyDisk dataDisk) ∧
      ItemReleased item keyBlocks dataBlocks names later keyDisk dataDisk := by
  have distinct : ((item.dataOffsets.filter fun entry => entry.offset ≠ 0).map OffsetAndTime.offset).Nodup :=
    owns.distinct.sublist (List.filter_sublist.map _)
  have live : ∀ entry ∈ item.dataOffsets.filter fun entry => entry.offset ≠ 0,
      ∃ block, blockAt dataBlocks entry.offset = some block ∧ block.Live := by
    intro entry inside
    obtain ⟨block, found, alive, _⟩ := owns.own _ (List.mem_map_of_mem inside)
    exact ⟨block, found, alive⟩
  obtain ⟨dataDisk, later, dataRun, dataHolds, dataQuiet, dataReleased⟩ :=
    trimBlocks_run _ holds.dataDisk holds.dataQuiet distinct live
  rw [← deleteBlocks_eq _ owns.zeroLast] at dataRun
  obtain ⟨block, found, alive, _⟩ := holds.keyBlock member
  obtain ⟨keyDisk, names, keyRun, keyHolds, keyQuiet, keyReleased⟩ :=
    trimBlocks_run [⟨item.keyStorageOffset, 0#64⟩] holds.keyDisk holds.keyQuiet (by simp)
      (by simpa using ⟨block, found, alive⟩)
  refine ⟨keyDisk, dataDisk, names, later, ?_,
    ⟨keyHolds, keyQuiet, dataHolds, dataQuiet, keyReleased, dataReleased⟩⟩
  unfold storageDeleteItem
  rw [EStateM.bind_ok (EStateM.get_apply store), find_of_mem holds.ids member]
  dsimp only
  rw [EStateM.bind_ok (EStateM.modify_apply _ _)]
  obtain ⟨code, middle, releasedKey, done⟩ := EStateM.of_bind_ok keyRun
  obtain rfl : middle = keyDisk := by
    cases done
    rfl
  have data : onDataStore (deleteBlocks item.dataOffsets)
      (store.without item.internalId store.keyDiskStore store.dataDiskStore) =
        .ok () (store.without item.internalId store.keyDiskStore dataDisk) := by
    simp only [onDataStore, Storage.without, dataRun]
  have key : resultCode (onKeyStore (diskStorageReleaseBlock item.keyStorageOffset))
      (store.without item.internalId store.keyDiskStore dataDisk) =
        .ok code (store.without item.internalId middle dataDisk) :=
    resultCode_onKeyStore releasedKey
  exact (EStateM.bind_ok data _).trans (EStateM.bind_ok key _)

/-- The item is replaced where it stands. -/
theorem withItem_split {front rest : List StorageItem} {state : ItemStore}
    (distinct : (store.items.map StorageItem.internalId).Nodup) (split : store.items = front ++ item :: rest)
    (same : state.item.internalId = item.internalId) :
    (store.withItem state).items = front ++ state.item :: rest := by
  have others : ∀ part : List StorageItem, (∀ other ∈ part, other.internalId ≠ item.internalId) →
      part.map (fun other => if other.internalId = state.item.internalId then state.item else other) = part := by
    intro part different
    conv_rhs => rw [← List.map_id part]
    apply List.map_congr_left
    intro other member
    rw [same, if_neg (different other member)]
    rfl
  rw [split, List.map_append, List.nodup_append, List.map_cons, List.nodup_cons] at distinct
  unfold Storage.withItem
  rw [split, List.map_append, List.map_cons, if_pos same.symm, others front, others rest]
  · intro other member equal
    exact distinct.2.1.1 (List.mem_map.mpr ⟨other, member, equal⟩)
  · intro other member equal
    exact distinct.2.2 _ (List.mem_map_of_mem member) _ List.mem_cons_self equal

theorem without_split {front rest : List StorageItem} {keyDisk dataDisk : DiskStorage}
    (distinct : (store.items.map StorageItem.internalId).Nodup) (split : store.items = front ++ item :: rest) :
    (store.without item.internalId keyDisk dataDisk).items = front ++ rest := by
  have others : ∀ part : List StorageItem, (∀ other ∈ part, other.internalId ≠ item.internalId) →
      part.filter (fun other => other.internalId ≠ item.internalId) = part := by
    intro part different
    rw [List.filter_eq_self]
    intro other member
    simpa using different other member
  rw [split, List.map_append, List.nodup_append, List.map_cons, List.nodup_cons] at distinct
  unfold Storage.without
  rw [split, List.filter_append, List.filter_cons_of_neg (by simp), others front, others rest]
  · intro other member equal
    exact distinct.2.1.1 (List.mem_map.mpr ⟨other, member, equal⟩)
  · intro other member equal
    exact distinct.2.2 _ (List.mem_map_of_mem member) _ List.mem_cons_self equal

/-- What is known of the items before and after a clean. -/
structure CleanLaw (s : Nat) (t : Int) (before done : (Nat → Option Block) → StorageItem → Prop) : Prop where
  owns : ∀ {content item}, content 0 = none → before content item → ItemOwns s content item
  frame : ∀ {content later item other}, before content item → item.internalId ≠ other →
    Frame other content later → before later item
  frameDone : ∀ {content later item other}, done content item → item.internalId ≠ other →
    Frame other content later → done later item
  trim : ∀ {content later item}, content 0 = none → before content item → ¬ item.Expired t →
    BlocksReleased (item.trimPlaces t) content later → done later (item.trimmed t)

/-- The items that wait for the clean, and those that it has passed. -/
def Pending (before done : (Nat → Option Block) → StorageItem → Prop) (pending : List Nat)
    (content : Nat → Option Block) (item : StorageItem) : Prop :=
  if item.internalId ∈ pending then before content item else done content item

variable {s : Nat} {t : Int} {before done : (Nat → Option Block) → StorageItem → Prop}

/-- Work on one item leaves the others as they are. -/
theorem CleanLaw.pass (law : CleanLaw s t before done) {internalId : Nat} {pending : List Nat}
    {content later : Nat → Option Block} {other : StorageItem} (elsewhere : other.internalId ≠ internalId)
    (frame : Frame internalId content later)
    (holds : Pending before done (internalId :: pending) content other) : Pending before done pending later other := by
  unfold Pending at *
  by_cases waiting : other.internalId ∈ pending
  · rw [if_pos (List.mem_cons_of_mem _ waiting)] at holds
    rw [if_pos waiting]
    exact law.frame holds elsewhere frame
  · rw [if_neg (by rw [List.mem_cons, not_or]; exact ⟨elsewhere, waiting⟩)] at holds
    rw [if_neg waiting]
    exact law.frameDone holds elsewhere frame

/-- One round of a clean: the item is trimmed, and deleted when its last point is old. -/
theorem cleanStep_run (law : CleanLaw s t before done) {pending : List Nat} {front rest : List StorageItem}
    (holds : StorageHolds (Pending before done (item.internalId :: pending)) store keyBlocks dataBlocks)
    (split : store.items = front ++ item :: rest) (single : item.internalId ∉ pending) :
    ∃ shouldDelete middle after names later,
      onItem item.internalId (storageTrimAndWriteToDisk t) store = .ok shouldDelete middle ∧
      (if shouldDelete then storageDeleteItem item.internalId else pure ()) middle = .ok () after ∧
      StorageHolds (Pending before done pending) after names later ∧ SameConfig store after ∧
      after.items = front ++ ([item].filter fun item => ¬ item.Expired t).map (StorageItem.trimmed t) ++ rest := by
  have member : item ∈ store.items := by
    rw [split]
    simp
  have waiting : before (blockAt dataBlocks) item := by
    have kept := holds.items item member
    rwa [Pending, if_pos (by simp)] at kept
  have owns := law.owns (blockAt_zero dataBlocks) waiting
  by_cases expired : item.Expired t
  · have trimmed := onItem_ok holds.ids member (@storageTrimAndWriteToDisk_expired
      ⟨item, store.dataDiskStore⟩ t expired)
    rw [Storage.withItem_self holds.ids member] at trimmed
    obtain ⟨keyDisk, dataDisk, names, later, run, released⟩ := storageDeleteItem_run holds member owns
    refine ⟨true, store, store.without item.internalId keyDisk dataDisk, names, later, trimmed, run, ?_, ⟨rfl, rfl⟩, ?_⟩
    · exact holds.without member owns released fun other _ elsewhere kept =>
        law.pass elsewhere (released.frame owns) kept
    · rw [without_split holds.ids split, List.filter_cons_of_neg (by simpa using expired)]
      simp
  · obtain ⟨disk, later, run, held, calm, released⟩ := @storageTrimAndWriteToDisk_run s dataBlocks
      ⟨item, store.dataDiskStore⟩ t owns holds.dataDisk holds.dataQuiet expired
    have frame := released.frame (owns.trim_own (t := t))
    have change : ItemChange store.initialTscBufSize dataBlocks later ⟨item, store.dataDiskStore⟩
        ⟨item.trimmed t, disk⟩ :=
      ⟨held, calm, rfl, rfl, rfl, frame, fun bounded => released.bounded _ bounded⟩
    have own : Pending before done pending (blockAt later) (item.trimmed t) := by
      rw [Pending, if_neg (by exact single)]
      exact law.trim (blockAt_zero dataBlocks) waiting expired released
    refine ⟨false, store.withItem ⟨item.trimmed t, disk⟩, store.withItem ⟨item.trimmed t, disk⟩, keyBlocks, later,
      onItem_ok holds.ids member run, rfl, ?_, ⟨rfl, rfl⟩, ?_⟩
    · exact holds.withItem member change own fun other _ elsewhere kept => law.pass elsewhere frame kept
    · rw [@withItem_split store item front rest ⟨item.trimmed t, disk⟩ holds.ids split rfl,
        List.filter_cons_of_pos (by simpa using expired)]
      simp

/-- The loop of `clean_items`. -/
theorem cleanLoop_run (law : CleanLaw s t before done) (pending : List StorageItem) :
    ∀ {store : Storage} {keyBlocks dataBlocks : List Block} {front : List StorageItem},
      StorageHolds (Pending before done (pending.map StorageItem.internalId)) store keyBlocks dataBlocks →
      store.items = front ++ pending →
      ∃ after names later, cleanLoop t (pending.map StorageItem.internalId) store = .ok () after ∧
        StorageHolds done after names later ∧ SameConfig store after ∧
        after.items = front ++ (pending.filter fun item => ¬ item.Expired t).map (StorageItem.trimmed t) := by
  induction pending with
  | nil =>
      intro store keyBlocks dataBlocks front holds split
      refine ⟨store, keyBlocks, dataBlocks, rfl, holds.mono ?_, .refl store, split⟩
      intro item _ kept
      simpa [Pending] using kept
  | cons item rest ih =>
      intro store keyBlocks dataBlocks front holds split
      have single : item.internalId ∉ rest.map StorageItem.internalId := by
        have distinct := holds.ids
        rw [split, List.map_append, List.nodup_append, List.map_cons, List.nodup_cons] at distinct
        exact distinct.2.1.1
      obtain ⟨shouldDelete, middle, next, names, later, trim, drop, held, same, place⟩ :=
        cleanStep_run law holds split single
      obtain ⟨after, names', later', more, final, config, items⟩ := ih held place
      refine ⟨after, names', later', ?_, final, same.trans config, ?_⟩
      · rw [List.map_cons, cleanLoop, EStateM.bind_ok trim]
        cases shouldDelete with
        | false =>
            cases drop
            exact more
        | true => exact (EStateM.bind_ok drop _).trans more
      · rw [items, List.append_assoc, ← List.map_append, ← List.filter_append, List.singleton_append]

/-- Every item is in the list. -/
theorem StorageHolds.list_eq (holds : StorageHolds keeps store keyBlocks dataBlocks) :
    store.list = store.items.map StorageItem.internalId := by
  unfold Storage.list
  rw [List.filter_eq_self.mpr]
  intro item member
  obtain ⟨key, named, _⟩ := holds.keys item member
  rw [named]
  rfl

/-- A call of `clean_items`. -/
theorem cleanItems_run {now : Int} (law : CleanLaw s (now - store.retentionSeconds) before done)
    (holds : StorageHolds before store keyBlocks dataBlocks) :
    ∃ after names later, cleanItems now store = .ok () after ∧ StorageHolds done after names later ∧
      SameConfig store after ∧
      after.items = (store.items.filter fun item => ¬ item.Expired (now - store.retentionSeconds)).map
        (StorageItem.trimmed (now - store.retentionSeconds)) := by
  have pending : StorageHolds (Pending before done (store.items.map StorageItem.internalId)) store keyBlocks
      dataBlocks := by
    apply holds.mono
    intro item member kept
    rw [Pending, if_pos (List.mem_map_of_mem member)]
    exact kept
  obtain ⟨after, names, later, run, final, config, items⟩ := cleanLoop_run law store.items pending
    (List.nil_append store.items).symm
  refine ⟨after, names, later, ?_, final, config, items⟩
  unfold cleanItems
  rw [EStateM.bind_ok (EStateM.get_apply store), holds.list_eq]
  exact run

end

end Menoetius
