import Menoetius.StorageInit

/-
This file states which blocks an item owns, whatever the order of its points.
-/

namespace Menoetius
open LittleEndian

/-- The item refers to all blocks with its internal id, and to no others. -/
structure ItemOwns (s : Nat) (content : Nat → Option Block) (item : StorageItem) : Prop where
  small : item.internalId < 2 ^ 63
  stream : ∃ points, BlockHolds item.data points ∧ ∀ point ∈ points, 0 < point.1.toInt
  dataLen : item.data.dataLen = s
  entries : ∀ entry ∈ item.dataOffsets, entry.offset ≠ 0 → ∃ block completeBlock points,
    content entry.offset = some block ∧ PointBlock s item.internalId completeBlock points block
  zeroLast : ∀ entry ∈ item.dataOffsets.dropLast, entry.offset ≠ 0
  distinct : (item.dataOffsets.map OffsetAndTime.offset).Nodup
  owned : ∀ offset block, content offset = some block → block.Live → carriedId block = item.internalId →
    offset ∈ item.dataOffsets.map OffsetAndTime.offset

section
variable {s : Nat} {content later : Nat → Option Block} {item : StorageItem} {series : Series}

/-- The blocks of another item may change. -/
theorem ItemOwns.frame {other : Nat} (owns : ItemOwns s content item) (different : item.internalId ≠ other)
    (frame : Frame other content later) : ItemOwns s later item := by
  have small := owns.small
  refine { owns with entries := ?_, owned := ?_ }
  · intro entry member nonzero
    obtain ⟨block, complete, points, found, data⟩ := owns.entries entry member nonzero
    refine ⟨block, complete, points, frame.kept _ _ found data.live ?_, data⟩
    rw [data.carries (by omega)]
    exact different
  · intro offset block found live carried
    exact owns.owned offset block (frame.old offset block found live (by rw [carried]; exact different)) live carried

/-- An item without points owns nothing. -/
theorem ItemOwns.fresh {internalId offset : Nat} {key : Option (List UInt8)} {data : TscHeader}
    (stream : BlockHolds data []) (dataLen : data.dataLen = s) (small : internalId < 2 ^ 63)
    (unused : ∀ offset block, content offset = some block → block.Live → carriedId block ≠ internalId) :
    ItemOwns s content ⟨internalId, key, data, offset, []⟩ where
  small := small
  stream := ⟨[], stream, by simp⟩
  dataLen := dataLen
  entries := by
    intro entry member
    cases member
  zeroLast := by
    intro entry member
    cases member
  distinct := List.nodup_nil
  owned := fun offset block found live carried => absurd carried (unused offset block found live)

theorem EntryHolds.nonzero {internalId : Nat} {entry : OffsetAndTime} {points : List Point}
    (holds : EntryHolds s content internalId entry points) (zero : content 0 = none) : entry.offset ≠ 0 :=
  holds.offset_ne zero

theorem nonempty_of_start {points : List Point} {startTime : Word}
    (start : points.head?.map Prod.fst = some startTime) : points ≠ [] := by
  rintro rfl
  cases start

theorem ItemHolds.completePositive (holds : ItemHolds s content item series) {points : List Point}
    (member : points ∈ series.complete) : ∀ point ∈ points, 0 < point.1.toInt :=
  fun point inside => holds.positive point
    (List.mem_append_left _ (List.mem_flatten.mpr ⟨points, member, inside⟩))

theorem ItemHolds.streamPositive (holds : ItemHolds s content item series) :
    ∀ point ∈ series.stream, 0 < point.1.toInt :=
  fun point inside => holds.positive point (List.mem_append_right _ inside)

/-- An item with a timeseries owns its blocks. -/
theorem ItemHolds.owns (holds : ItemHolds s content item series) (zero : content 0 = none) :
    ItemOwns s content item := by
  obtain ⟨front, last, split, entries, open_⟩ := holds.entries
  have complete : ∀ entry ∈ front, ∃ block completeBlock points,
      content entry.offset = some block ∧ PointBlock s item.internalId completeBlock points block := by
    intro entry member
    obtain ⟨points, present, held⟩ := entry_of_mem entries member
    obtain ⟨block, found, data⟩ := held.block
    exact ⟨block, true, points, found, data, nonempty_of_start held.start, holds.completePositive present⟩
  have front_nonzero : ∀ entry ∈ front, entry.offset ≠ 0 := by
    intro entry member
    obtain ⟨_, _, held⟩ := entry_of_mem entries member
    exact held.nonzero zero
  refine
    { small := holds.small
      stream := ⟨series.stream, holds.stream, holds.streamPositive⟩
      dataLen := holds.dataLen
      entries := ?_
      zeroLast := ?_
      distinct := holds.distinct
      owned := holds.owned }
  · intro entry member nonzero
    rw [split, List.mem_append] at member
    rcases member with inFront | inLast
    · exact complete entry inFront
    · cases open_ with
      | unused first none => cases inLast
      | unwritten startTime none =>
          rw [List.mem_singleton.mp inLast] at nonzero
          exact absurd rfl nonzero
      | written other points block found data copy start part =>
          rw [List.mem_singleton.mp inLast]
          exact ⟨block, false, points, found, data, nonempty_of_start start,
            fun point inside => holds.streamPositive point (part.subset inside)⟩
  · intro entry member
    apply front_nonzero
    rw [split] at member
    cases open_ with
    | unused first none =>
        rw [List.append_nil] at member
        exact List.mem_of_mem_dropLast member
    | unwritten startTime none => rwa [List.dropLast_concat] at member
    | written other points block found data copy start part => rwa [List.dropLast_concat] at member

theorem Collected.nonzero (collected : Collected s content item) (zero : content 0 = none) {entry : OffsetAndTime}
    (member : entry ∈ item.dataOffsets) : entry.offset ≠ 0 := by
  intro none
  obtain ⟨block, _, _, found, _⟩ := collected.entries entry member
  rw [none, zero] at found
  cases found

/-- An item that was loaded owns its blocks. -/
theorem Reloaded.owns (reloaded : Reloaded s content item) (zero : content 0 = none) : ItemOwns s content item := by
  obtain ⟨old, collected, some, rfl⟩ := reloaded
  have nonzero := fun entry (member : entry ∈ old.dataOffsets) => collected.nonzero zero member
  have owns : ItemOwns s content old := by
    refine
      { small := collected.small
        stream := ?_
        dataLen := collected.dataLen
        entries := ?_
        zeroLast := fun entry member => nonzero entry (List.mem_of_mem_dropLast member)
        distinct := collected.distinct
        owned := collected.owned }
    · rcases collected.stream with ⟨clear, _⟩ | ⟨_, _, points, _, data, stream⟩
      · exact ⟨[], clear, by simp⟩
      · exact ⟨points, stream, data.positive⟩
    · intro entry member _
      obtain ⟨block, complete, points, found, data, _⟩ := collected.entries entry member
      exact ⟨block, complete, points, found, data⟩
  unfold StorageItem.loaded
  split
  · refine { owns with entries := ?_, zeroLast := ?_, distinct := ?_, owned := ?_ }
    · intro entry member present
      rcases List.mem_append.mp member with inside | last
      · exact owns.entries entry inside present
      · rw [List.mem_singleton.mp last] at present
        exact absurd rfl present
    · intro entry member
      change entry ∈ (old.dataOffsets ++ [unwritten]).dropLast at member
      rw [List.dropLast_concat] at member
      exact nonzero entry member
    · change ((old.dataOffsets ++ [unwritten]).map OffsetAndTime.offset).Nodup
      rw [List.map_append, List.nodup_append]
      refine ⟨owns.distinct, by simp, ?_⟩
      rintro first inside second last rfl
      rw [List.map_singleton, List.mem_singleton] at last
      obtain ⟨entry, member, same⟩ := List.mem_map.mp inside
      exact nonzero entry member (same.trans last)
    · intro offset block found live carried
      change offset ∈ (old.dataOffsets ++ [unwritten]).map OffsetAndTime.offset
      rw [List.map_append]
      exact List.mem_append_left _ (owns.owned offset block found live carried)
  · exact owns

end

section
variable {keeps : (Nat → Option Block) → StorageItem → Prop} {store : Storage} {keyBlocks dataBlocks : List Block}

/-- The key block of an item. -/
theorem KeysHold.keyBlock (holds : KeysHold store keyBlocks) {item : StorageItem} (member : item ∈ store.items) :
    ∃ block, blockAt keyBlocks item.keyStorageOffset = some block ∧ block.Live ∧
      blockKeyId block = item.internalId ∧ item.key = some (blockKey block) ∧ ValidKey (blockKey block) ∧
      KeyBlock (blockKey block) item.internalId block := by
  obtain ⟨key, named, valid, block, found, keyBlock⟩ := holds.keys item member
  have small := holds.below item member
  have bound := holds.next
  obtain ⟨readKey, readId⟩ := keyBlock.reads valid (by omega)
  rw [← readKey] at named valid keyBlock
  exact ⟨block, found, keyBlock.live, readId, named, valid, keyBlock⟩

theorem StorageHolds.keyBlock (holds : StorageHolds keeps store keyBlocks dataBlocks) {item : StorageItem}
    (member : item ∈ store.items) :
    ∃ block, blockAt keyBlocks item.keyStorageOffset = some block ∧ block.Live ∧
      blockKeyId block = item.internalId ∧ item.key = some (blockKey block) ∧ ValidKey (blockKey block) ∧
      KeyBlock (blockKey block) item.internalId block :=
  holds.keysHold.keyBlock member

/-- The key blocks can be loaded. -/
theorem KeysHold.loadable (holds : KeysHold store keyBlocks) : KeysLoadable (blockAt keyBlocks) := by
  have keyed : ∀ offset block, blockAt keyBlocks offset = some block → block.Live →
      ∃ item ∈ store.items, item.keyStorageOffset = offset ∧ blockKeyId block = item.internalId ∧
        item.key = some (blockKey block) ∧ ValidKey (blockKey block) ∧
        KeyBlock (blockKey block) item.internalId block := by
    intro offset block found live
    obtain ⟨item, member, rfl⟩ := holds.keyOwned offset block found live
    obtain ⟨other, there, _, id, named, valid, keyBlock⟩ := holds.keyBlock member
    rw [found] at there
    rw [← Option.some.inj there] at id named valid keyBlock
    exact ⟨item, member, rfl, id, named, valid, keyBlock⟩
  constructor
  · intro offset block found live
    obtain ⟨item, member, _, id, _, valid, keyBlock⟩ := keyed offset block found live
    have below := holds.below item member
    have bound := holds.next
    rw [id]
    exact ⟨valid, by omega, keyBlock⟩
  · intro first second block other found live found' live' same
    obtain ⟨item, member, here, id, named, _⟩ := keyed first block found live
    obtain ⟨item', member', there, id', named', _⟩ := keyed second other found' live'
    have equal : item = item' := by
      rcases same with sameKey | sameId
      · exact eq_of_nodup_map holds.keysDistinct member member' (by rw [named, named', sameKey])
      · exact eq_of_nodup_map holds.ids member member' (by rw [← id, ← id', sameId])
    rw [← here, ← there, equal]

/-- A process that stops leaves a directory that can be loaded. -/
theorem StorageHolds.directory (holds : StorageHolds keeps store keyBlocks dataBlocks)
    (owns : ∀ item ∈ store.items, keeps (blockAt dataBlocks) item →
      ItemOwns store.initialTscBufSize (blockAt dataBlocks) item) :
    Directory store.initialTscBufSize store keyBlocks dataBlocks := by
  have own := fun item (member : item ∈ store.items) => owns item member (holds.items item member)
  refine
    { keyDisk := holds.keyDisk
      keyQuiet := holds.keyQuiet
      dataDisk := holds.dataDisk
      dataQuiet := holds.dataQuiet
      loadable := ?_
      dataBounded := holds.dataBounded
      keysLoadable := holds.keysHold.loadable
      keyBounded := holds.keyBounded
      known := ?_ }
  · intro offset block found live
    obtain ⟨item, member, carried⟩ := holds.dataOwned offset block found live
    have owned := own item member
    obtain ⟨entry, present, rfl⟩ := List.mem_map.mp (owned.owned offset block found live carried)
    have least := blockAt_ge found
    unfold storageInitialReserved at least
    obtain ⟨other, complete, points, there, data⟩ := owned.entries entry present (by omega)
    rw [found] at there
    rw [← Option.some.inj there] at data
    rw [carried]
    exact ⟨owned.small, complete, points, data⟩
  · intro offset block found live
    obtain ⟨item, member, carried⟩ := holds.dataOwned offset block found live
    obtain ⟨key, there, alive, id, _⟩ := holds.keyBlock member
    exact ⟨item.keyStorageOffset, key, there, alive, id.trans carried.symm⟩

end

end Menoetius
