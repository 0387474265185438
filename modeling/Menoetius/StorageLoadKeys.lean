import Menoetius.StorageLoad

/-
This file follows the second loop of `storage_load`, which gives the items their keys.
-/

namespace Menoetius
open LittleEndian

/-- The key that the loader reads from a block. -/
def blockKey (block : Block) : List UInt8 := (block.payload.drop 2).take (valueOf (block.payload.take 2))

/-- The internal id that the loader reads from a key block. -/
def blockKeyId (block : Block) : Nat :=
  valueOf ((block.payload.drop (2 + valueOf (block.payload.take 2))).take 8)

section
variable {key : List UInt8} {internalId : Nat} {block : Block}

theorem KeyBlock.length (holds : KeyBlock key internalId block) (valid : ValidKey key) :
    valueOf (block.payload.take 2) = key.length ∧ 2 + key.length + 8 ≤ block.payload.length := by
  obtain ⟨_, short⟩ := valid
  unfold maxLfmSize at short
  obtain ⟨rest, payload⟩ := holds.image
  rw [payload, List.take_left' (bytesOf_length _ _), valueOf_bytesOf_of_lt 2 _ (by omega)]
  simp
  omega

/-- The loader reads back what was written. -/
theorem KeyBlock.reads (holds : KeyBlock key internalId block) (valid : ValidKey key) (small : internalId < 2 ^ 63) :
    blockKey block = key ∧ blockKeyId block = internalId := by
  obtain ⟨length, _⟩ := holds.length valid
  obtain ⟨rest, payload⟩ := holds.image
  unfold blockKey blockKeyId
  rw [length, payload, List.drop_left' (bytesOf_length _ _), List.take_left' rfl, ← List.drop_drop,
    List.drop_left' (bytesOf_length _ _), List.drop_left' rfl, List.take_left' (bytesOf_length _ _),
    valueOf_bytesOf_of_lt 8 _ (by omega)]
  exact ⟨rfl, rfl⟩

end

/-- The blocks of a key store can be loaded: each has a key and an internal id of its own. -/
structure KeysLoadable (content : Nat → Option Block) : Prop where
  readable : ∀ offset block, content offset = some block → block.Live →
    ValidKey (blockKey block) ∧ blockKeyId block + 1 < 2 ^ 63 ∧ KeyBlock (blockKey block) (blockKeyId block) block
  unique : ∀ first second block other, content first = some block → block.Live → content second = some other →
    other.Live → blockKey block = blockKey other ∨ blockKeyId block = blockKeyId other → first = second

/-- Where an item stands in the second loop: its key is behind the scan, or still before it. -/
structure Naming (content : Nat → Option Block) (pos : Nat) (item : StorageItem) : Prop where
  block : ∃ offset block, content offset = some block ∧ block.Live ∧ blockKeyId block = item.internalId ∧
    (item.key = none ∧ pos ≤ offset ∨
      item.key = some (blockKey block) ∧ item.keyStorageOffset = offset ∧ offset < pos)

/-- The storage during the second loop, with the blocks of the key store before and behind the scan. -/
structure KeysScanned (s : Nat) (content : Nat → Option Block) (front back : List Block) (store : Storage) : Prop where
  disk : DiskHolds store.keyDiskStore (front ++ back)
  quiet : store.keyDiskStore.numBeforeCrash = none
  loadable : KeysLoadable (blockAt (front ++ back))
  bounded : Bounded keyBound (blockAt (front ++ back))
  ids : (store.items.map StorageItem.internalId).Nodup
  each : ∀ item ∈ store.items, item.dataOffsets ≠ [] ∧ Collected s content item
  owned : ∀ offset block, content offset = some block → block.Live →
    ∃ item ∈ store.items, carriedId block = item.internalId
  naming : ∀ item ∈ store.items,
    Naming (blockAt (front ++ back)) (storageInitialReserved + spanOf front) item
  keyOwned : ∀ offset block, blockAt (front ++ back) offset = some block → block.Live →
    offset < storageInitialReserved + spanOf front →
    ∃ item ∈ store.items, item.key ≠ none ∧ item.keyStorageOffset = offset
  next : store.nextInternalId < 2 ^ 63
  below : ∀ item ∈ store.items, item.key ≠ none → item.internalId < store.nextInternalId

/-- What the key store says about the items that the second loop has passed, whatever is in the data store. -/
structure KeysPassed (front back : List Block) (store : Storage) : Prop where
  disk : DiskHolds store.keyDiskStore (front ++ back)
  quiet : store.keyDiskStore.numBeforeCrash = none
  loadable : KeysLoadable (blockAt (front ++ back))
  bounded : Bounded keyBound (blockAt (front ++ back))
  ids : (store.items.map StorageItem.internalId).Nodup
  named : ∀ item ∈ store.items, item.key ≠ none →
    item.keyStorageOffset < storageInitialReserved + spanOf front ∧
      ∃ block, blockAt (front ++ back) item.keyStorageOffset = some block ∧ block.Live ∧
        blockKeyId block = item.internalId ∧ item.key = some (blockKey block)
  keyOwned : ∀ offset block, blockAt (front ++ back) offset = some block → block.Live →
    offset < storageInitialReserved + spanOf front →
    ∃ item ∈ store.items, item.key ≠ none ∧ item.keyStorageOffset = offset
  next : store.nextInternalId < 2 ^ 63
  below : ∀ item ∈ store.items, item.key ≠ none → item.internalId < store.nextInternalId

/-- Only the items, the next internal id and the key store change. -/
def SameData (store after : Storage) : Prop :=
  after = { store with
    items := after.items, nextInternalId := after.nextInternalId, keyDiskStore := after.keyDiskStore }

theorem blockAt_region {front back : List Block} {offset : Nat} {block : Block}
    (found : blockAt (front ++ back) offset = some block) :
    offset < storageInitialReserved + spanOf front ∧ blockAt front offset = some block ∨
      storageInitialReserved + spanOf front ≤ offset ∧ ∃ before behind, back = before ++ block :: behind ∧
        offset = storageInitialReserved + spanOf front + spanOf before := by
  rcases blockAt_append_live found with old | ⟨before, behind, split, place⟩
  · obtain ⟨first, rest, split, place⟩ := (blockAt_eq_some _ _ _).mp old
    have positive := block.span_pos
    have span : spanOf front = spanOf first + (block.span + spanOf rest) := by
      rw [split, spanOf_append, spanOf_cons]
    exact Or.inl ⟨by omega, old⟩
  · exact Or.inr ⟨by omega, before, behind, split, place⟩

section
variable {s : Nat} {content : Nat → Option Block} {front back dead : List Block} {store : Storage} {block : Block}

/-- A block in use is not among blocks that are not. -/
theorem region_of_dead {offset : Nat} (none : ∀ other ∈ dead, ¬ other.Live)
    (found : blockAt (front ++ dead ++ back) offset = some block) (live : block.Live) :
    offset < storageInitialReserved + spanOf front ∨ storageInitialReserved + spanOf (front ++ dead) ≤ offset := by
  rcases blockAt_region found with ⟨_, inside⟩ | ⟨behind, _⟩
  · rcases blockAt_region inside with ⟨before, _⟩ | ⟨_, first, rest, split, _⟩
    · exact Or.inl before
    · exact absurd live (none block (by rw [split]; simp))
  · exact Or.inr behind

/-- The items of the scan that have a key are those that it has passed. -/
theorem KeysScanned.passed (scanned : KeysScanned s content front back store) : KeysPassed front back store where
  disk := scanned.disk
  quiet := scanned.quiet
  loadable := scanned.loadable
  bounded := scanned.bounded
  ids := scanned.ids
  named := by
    intro item member some
    obtain ⟨offset, block, found, live, id, ⟨none, _⟩ | ⟨named, rfl, before⟩⟩ := (scanned.naming item member).block
    · exact absurd none some
    · exact ⟨before, block, found, live, id, named⟩
  keyOwned := scanned.keyOwned
  next := scanned.next
  below := scanned.below

/-- Before the second loop no item has a key. -/
theorem KeysPassed.start {keyBlocks : List Block} (disk : DiskHolds store.keyDiskStore keyBlocks)
    (quiet : store.keyDiskStore.numBeforeCrash = none) (loadable : KeysLoadable (blockAt keyBlocks))
    (bounded : Bounded keyBound (blockAt keyBlocks)) (ids : (store.items.map StorageItem.internalId).Nodup)
    (unnamed : ∀ item ∈ store.items, item.key = none) (next : store.nextInternalId < 2 ^ 63) :
    KeysPassed [] keyBlocks store where
  disk := disk
  quiet := quiet
  loadable := loadable
  bounded := bounded
  ids := ids
  named := fun item member some => absurd (unnamed item member) some
  keyOwned := by
    intro offset block found live before
    have least := blockAt_ge found
    rw [spanOf_nil] at before
    omega
  next := next
  below := fun item member some => absurd (unnamed item member) some

/-- The scan of the keys, with what else is known of the items. -/
theorem KeysPassed.scanned (passed : KeysPassed front back store)
    (each : ∀ item ∈ store.items, item.dataOffsets ≠ [] ∧ Collected s content item)
    (owned : ∀ offset block, content offset = some block → block.Live →
      ∃ item ∈ store.items, carriedId block = item.internalId)
    (naming : ∀ item ∈ store.items,
      Naming (blockAt (front ++ back)) (storageInitialReserved + spanOf front) item) :
    KeysScanned s content front back store :=
  { passed with each := each, owned := owned, naming := naming }

/-- The scan moves over blocks that are not in use. -/
theorem KeysPassed.skip (passed : KeysPassed front (dead ++ back) store) (none : ∀ other ∈ dead, ¬ other.Live)
    (pos : Nat) :
    KeysPassed (front ++ dead) back { store with keyDiskStore := store.keyDiskStore.seekTo pos } := by
  have same : front ++ (dead ++ back) = front ++ dead ++ back := (List.append_assoc _ _ _).symm
  obtain ⟨disk, quiet, loadable, bounded, ids, named, keyOwned, next, below⟩ := passed
  rw [same] at disk loadable bounded named keyOwned
  refine ⟨disk.seekTo pos, quiet, loadable, bounded, ids, ?_, ?_, next, below⟩
  · intro item member some
    obtain ⟨before, found⟩ := named item member some
    refine ⟨?_, found⟩
    rw [spanOf_append]
    omega
  · intro offset key found live before
    have region := region_of_dead none found live
    exact keyOwned offset key found live (by omega)

theorem KeysScanned.skip (scanned : KeysScanned s content front (dead ++ back) store)
    (none : ∀ other ∈ dead, ¬ other.Live) (pos : Nat) :
    KeysScanned s content (front ++ dead) back
      { store with keyDiskStore := store.keyDiskStore.seekTo pos } := by
  refine (scanned.passed.skip none pos).scanned scanned.each scanned.owned fun item member => ?_
  obtain ⟨offset, key, found, live, id, place⟩ := (scanned.naming item member).block
  rw [← List.append_assoc] at found
  refine ⟨offset, key, found, live, id, ?_⟩
  have region := region_of_dead none found live
  rcases place with ⟨unnamed, behind⟩ | ⟨named, here, before⟩
  · exact Or.inl ⟨unnamed, by omega⟩
  · refine Or.inr ⟨named, here, ?_⟩
    rw [spanOf_append]
    omega

theorem blockAt_here (front rest : List Block) (block : Block) :
    blockAt (front ++ block :: rest) (storageInitialReserved + spanOf front) = some block :=
  (blockAt_eq_some _ _ _).mpr ⟨front, rest, rfl, rfl⟩

/-- Another block lies before a block or behind it. -/
theorem region_beside {rest : List Block} {other : Block} {offset : Nat}
    (found : blockAt (front ++ block :: rest) offset = some other)
    (elsewhere : offset ≠ storageInitialReserved + spanOf front) :
    offset < storageInitialReserved + spanOf front ∨ storageInitialReserved + spanOf front + block.span ≤ offset := by
  rcases blockAt_region found with ⟨before, _⟩ | ⟨_, first, more, split, place⟩
  · exact Or.inl before
  · cases first with
    | nil =>
        rw [spanOf_nil, Nat.add_zero] at place
        exact absurd place elsewhere
    | cons head tail =>
        rw [List.cons_append, List.cons.injEq] at split
        rw [spanOf_cons, ← split.1] at place
        omega

/-- An item whose key is the next block has no key yet. -/
theorem KeysPassed.unnamed {rest : List Block} (passed : KeysPassed front (block :: rest) store) (live : block.Live)
    {item : StorageItem} (member : item ∈ store.items) (same : item.internalId = blockKeyId block) :
    item.key = none := by
  by_contra some
  obtain ⟨before, other, found, alive, id, _⟩ := passed.named item member some
  have here := passed.loadable.unique _ _ _ _ found alive (blockAt_here front rest block) live
    (Or.inr (id.trans same))
  omega

/-- Where the items stand when the scan has passed a block. -/
theorem Naming.pass {rest : List Block} {item : StorageItem}
    (naming : Naming (blockAt (front ++ block :: rest)) (storageInitialReserved + spanOf front) item)
    (other : blockKeyId block ≠ item.internalId) {new : Block} (span : new.span = block.span) :
    Naming (blockAt (front ++ [new] ++ rest)) (storageInitialReserved + spanOf (front ++ [new])) item := by
  obtain ⟨offset, key, found, live, id, place⟩ := naming.block
  have elsewhere : offset ≠ storageInitialReserved + spanOf front := by
    rintro rfl
    rw [blockAt_here] at found
    rw [← Option.some.inj found] at id
    exact other id
  have positive := block.span_pos
  have total : spanOf (front ++ [new]) = spanOf front + block.span := by
    rw [spanOf_append, spanOf_cons, spanOf_nil, Nat.add_zero, span]
  refine ⟨offset, key, ?_, live, id, ?_⟩
  · rw [List.append_assoc, List.singleton_append, blockAt_replace front rest block new span,
      Function.update_of_ne elsewhere]
    exact found
  · rcases place with ⟨unnamed, behind⟩ | ⟨named, here, before⟩
    · have beside := region_beside found elsewhere
      exact Or.inl ⟨unnamed, by omega⟩
    · exact Or.inr ⟨named, here, by omega⟩

/-- The next internal id stays above the ids of the keys. -/
def Storage.counted (store : Storage) (internalId : Nat) : Nat :=
  if store.nextInternalId ≤ internalId then internalId + 1 else store.nextInternalId

/-- The item moves to the end of the list with its key. -/
def Storage.attached (store : Storage) (item : StorageItem) (key : List UInt8) (offset : Nat) : Storage :=
  { store with
    nextInternalId := store.counted item.internalId
    items := (store.items.filter fun other => other.internalId ≠ item.internalId) ++
      [{ item with key := some key, keyStorageOffset := offset }] }

theorem mem_filter_id {items : List StorageItem} {internalId : Nat} (other : StorageItem) :
    other ∈ items.filter (fun other => other.internalId ≠ internalId) ↔
      other ∈ items ∧ other.internalId ≠ internalId := by
  rw [List.mem_filter]
  simp

theorem nodup_filter_append {items : List StorageItem} {internalId : Nat} {new : StorageItem}
    (distinct : (items.map StorageItem.internalId).Nodup) (same : new.internalId = internalId) :
    (((items.filter fun other => other.internalId ≠ internalId) ++ [new]).map StorageItem.internalId).Nodup := by
  rw [List.map_append, List.nodup_append]
  refine ⟨distinct.sublist (List.filter_sublist.map _), by simp, ?_⟩
  rintro first inItems second inNew rfl
  rw [List.map_singleton, List.mem_singleton, same] at inNew
  obtain ⟨other, present, here⟩ := List.mem_map.mp inItems
  exact ((mem_filter_id other).mp present).2 (here.trans inNew)

theorem mem_attached {item : StorageItem} {key : List UInt8} {offset : Nat} (other : StorageItem) :
    other ∈ (store.attached item key offset).items ↔
      (other ∈ store.items ∧ other.internalId ≠ item.internalId) ∨
      other = { item with key := some key, keyStorageOffset := offset } := by
  unfold Storage.attached
  rw [List.mem_append, mem_filter_id, List.mem_singleton]

/-- The block of a passed item is elsewhere. -/
theorem KeysPassed.elsewhere {rest : List Block} {item : StorageItem}
    (passed : KeysPassed front (block :: rest) store) (member : item ∈ store.items) (some : item.key ≠ none)
    {new : Block} (span : new.span = block.span) :
    item.keyStorageOffset < storageInitialReserved + spanOf (front ++ [new]) ∧
      ∃ key, blockAt (front ++ [new] ++ rest) item.keyStorageOffset = Option.some key ∧ key.Live ∧
        blockKeyId key = item.internalId ∧ item.key = Option.some (blockKey key) := by
  obtain ⟨before, key, found, live, id, named⟩ := passed.named item member some
  have total : spanOf (front ++ [new]) = spanOf front + block.span := by
    rw [spanOf_append, spanOf_cons, spanOf_nil, Nat.add_zero, span]
  refine ⟨by omega, key, ?_, live, id, named⟩
  rw [List.append_assoc, List.singleton_append, blockAt_replace front rest block new span,
    Function.update_of_ne (by omega)]
  exact found

/-- An item gets its key. -/
theorem KeysPassed.attach {rest : List Block} {item : StorageItem} (passed : KeysPassed front (block :: rest) store)
    (live : block.Live) (member : item ∈ store.items) (same : item.internalId = blockKeyId block) :
    KeysPassed (front ++ [block]) rest
      (store.attached item (blockKey block) (storageInitialReserved + spanOf front)) := by
  obtain ⟨_, small, _⟩ := passed.loadable.readable _ _ (blockAt_here front rest block) live
  have blocks : front ++ block :: rest = front ++ [block] ++ rest := by simp
  have positive := block.span_pos
  have total : spanOf (front ++ [block]) = spanOf front + block.span := by
    rw [spanOf_append, spanOf_cons, spanOf_nil, Nat.add_zero]
  refine
    { disk := by rw [← blocks]; exact passed.disk
      quiet := passed.quiet
      loadable := by rw [← blocks]; exact passed.loadable
      bounded := by rw [← blocks]; exact passed.bounded
      ids := nodup_filter_append passed.ids rfl
      named := ?_
      keyOwned := ?_
      next := ?_
      below := ?_ }
  · intro other present some
    rcases (mem_attached other).mp present with ⟨old, _⟩ | rfl
    · exact passed.elsewhere old some rfl
    · refine ⟨by dsimp only; omega, block, ?_, live, same.symm, rfl⟩
      rw [← blocks]
      exact blockAt_here front rest block
  · intro offset key found alive before
    rw [← blocks] at found
    by_cases here : offset = storageInitialReserved + spanOf front
    · exact ⟨_, (mem_attached _).mpr (Or.inr rfl), by simp, here.symm⟩
    · have beside := region_beside found here
      obtain ⟨other, old, named, place⟩ := passed.keyOwned offset key found alive (by omega)
      refine ⟨other, (mem_attached other).mpr (Or.inl ⟨old, ?_⟩), named, place⟩
      intro equal
      rw [eq_of_nodup_map passed.ids old member equal] at named
      exact named (passed.unnamed live member same)
  · change store.counted item.internalId < 2 ^ 63
    have below := passed.next
    unfold Storage.counted
    split <;> omega
  · intro other present named
    change other.internalId < store.counted item.internalId
    rcases (mem_attached other).mp present with ⟨old, _⟩ | rfl
    · have below := passed.below other old named
      unfold Storage.counted
      split <;> omega
    · change item.internalId < _
      unfold Storage.counted
      split <;> omega

theorem KeysScanned.attach {rest : List Block} {item : StorageItem}
    (scanned : KeysScanned s content front (block :: rest) store) (live : block.Live) (member : item ∈ store.items)
    (same : item.internalId = blockKeyId block) :
    KeysScanned s content (front ++ [block]) rest
      (store.attached item (blockKey block) (storageInitialReserved + spanOf front)) := by
  have blocks : front ++ block :: rest = front ++ [block] ++ rest := by simp
  have positive := block.span_pos
  have total : spanOf (front ++ [block]) = spanOf front + block.span := by
    rw [spanOf_append, spanOf_cons, spanOf_nil, Nat.add_zero]
  refine (scanned.passed.attach live member same).scanned ?_ ?_ ?_
  · intro other present
    rcases (mem_attached other).mp present with ⟨old, _⟩ | rfl
    · exact scanned.each other old
    · obtain ⟨some, own⟩ := scanned.each item member
      exact ⟨some, { own with }⟩
  · intro offset data found alive
    obtain ⟨other, old, carried⟩ := scanned.owned offset data found alive
    by_cases here : other.internalId = item.internalId
    · exact ⟨_, (mem_attached _).mpr (Or.inr rfl), carried.trans here⟩
    · exact ⟨other, (mem_attached _).mpr (Or.inl ⟨old, here⟩), carried⟩
  · intro other present
    rcases (mem_attached other).mp present with ⟨old, different⟩ | rfl
    · exact (scanned.naming other old).pass (by rw [← same]; exact different.symm) rfl
    · refine ⟨storageInitialReserved + spanOf front, block, ?_, live, same.symm, Or.inr ⟨rfl, rfl, by omega⟩⟩
      rw [← blocks]
      exact blockAt_here front rest block

/-- The blocks in use after a release were in use before, elsewhere. -/
theorem blockAt_released {rest : List Block} {empty other : Block} {offset : Nat} (status : empty.status = .empty)
    (span : empty.span = block.span) (found : blockAt (front ++ empty :: rest) offset = some other)
    (live : other.Live) :
    offset ≠ storageInitialReserved + spanOf front ∧ blockAt (front ++ block :: rest) offset = some other := by
  have dead : ¬ empty.Live := by
    rintro (alive | alive) <;> rw [status] at alive <;> cases alive
  by_cases here : offset = storageInitialReserved + spanOf front
  · subst here
    rw [blockAt_here] at found
    rw [← Option.some.inj found] at live
    exact absurd live dead
  · rw [blockAt_replace front rest block empty span, Function.update_of_ne here] at found
    exact ⟨here, found⟩

/-- A key without data is released. -/
theorem KeysPassed.release {rest : List Block} {empty : Block} {disk : DiskStorage} {pos : Nat}
    (passed : KeysPassed front (block :: rest) store) (live : block.Live)
    (held : DiskHolds disk (front ++ empty :: rest)) (quiet : disk.numBeforeCrash = none)
    (status : empty.status = .empty) (pool : empty.pool = block.pool) :
    KeysPassed (front ++ [empty]) rest
      { store with nextInternalId := store.counted (blockKeyId block), keyDiskStore := disk.seekTo pos } := by
  obtain ⟨_, small, _⟩ := passed.loadable.readable _ _ (blockAt_here front rest block) live
  have blocks : front ++ empty :: rest = front ++ [empty] ++ rest := by simp
  have span : empty.span = block.span := by rw [Block.span, Block.span, pool]
  have changed := blockAt_replace front rest block empty span
  have old : ∀ offset key, blockAt (front ++ empty :: rest) offset = some key → key.Live →
      offset ≠ storageInitialReserved + spanOf front ∧ blockAt (front ++ block :: rest) offset = some key :=
    fun offset key found alive => blockAt_released status span found alive
  refine
    { disk := by rw [← blocks]; exact held.seekTo pos
      quiet := quiet
      loadable := ?_
      bounded := ?_
      ids := passed.ids
      named := fun other present some => passed.elsewhere present some span
      keyOwned := ?_
      next := ?_
      below := ?_ }
  · rw [← blocks]
    constructor
    · intro offset key found alive
      exact passed.loadable.readable offset key (old offset key found alive).2 alive
    · intro first second key other found alive found' alive' same
      exact passed.loadable.unique first second key other (old _ _ found alive).2 alive (old _ _ found' alive').2
        alive' same
  · rw [← blocks, changed]
    exact passed.bounded.update (by rw [pool]; exact passed.bounded _ _ (blockAt_here front rest block))
  · intro offset key found alive before
    rw [← blocks] at found
    obtain ⟨here, found⟩ := old offset key found alive
    have beside := region_beside found here
    rw [spanOf_append, spanOf_cons, spanOf_nil, Nat.add_zero, span] at before
    exact passed.keyOwned offset key found alive (by omega)
  · change store.counted (blockKeyId block) < 2 ^ 63
    have below := passed.next
    unfold Storage.counted
    split <;> omega
  · intro other present named
    change other.internalId < store.counted (blockKeyId block)
    have below := passed.below other present named
    unfold Storage.counted
    split <;> omega

theorem KeysScanned.release {rest : List Block} {empty : Block} {disk : DiskStorage} {pos : Nat}
    (scanned : KeysScanned s content front (block :: rest) store) (live : block.Live)
    (absent : ∀ item ∈ store.items, item.internalId ≠ blockKeyId block)
    (held : DiskHolds disk (front ++ empty :: rest)) (quiet : disk.numBeforeCrash = none)
    (status : empty.status = .empty) (pool : empty.pool = block.pool) :
    KeysScanned s content (front ++ [empty]) rest
      { store with nextInternalId := store.counted (blockKeyId block), keyDiskStore := disk.seekTo pos } :=
  (scanned.passed.release live held quiet status pool).scanned scanned.each scanned.owned fun other present =>
    (scanned.naming other present).pass (absent other present).symm (by rw [Block.span, Block.span, pool])

theorem onKeyStore_ok {α : Type} {action : DiskM α} {value : α} {after : DiskStorage}
    (run : action store.keyDiskStore = .ok value after) :
    onKeyStore action store = .ok value { store with keyDiskStore := after } := by
  simp only [onKeyStore, run]

/-- Blocks in use have only been released. -/
def FewerLive (content later : Nat → Option Block) : Prop :=
  ∀ offset block, later offset = some block → block.Live → content offset = some block

/-- One round of the second loop attaches the key to its item, or releases the block when there is none. The block
behind it is the one that it leaves. -/
inductive KeyRound (front rest : List Block) (block : Block) (store : Storage) : Block → Storage → Prop
  | attach {item : StorageItem} (member : item ∈ store.items) (same : item.internalId = blockKeyId block) :
      KeyRound front rest block store block
        (store.attached item (blockKey block) (storageInitialReserved + spanOf front))
  | release {empty : Block} {disk : DiskStorage} (absent : ∀ item ∈ store.items, item.internalId ≠ blockKeyId block)
      (held : DiskHolds disk (front ++ empty :: rest)) (quiet : disk.numBeforeCrash = none)
      (status : empty.status = .empty) (pool : empty.pool = block.pool) :
      KeyRound front rest block store empty
        { store with
          nextInternalId := store.counted (blockKeyId block)
          keyDiskStore := disk.seekTo (storageInitialReserved + spanOf front + block.span) }

section
variable {rest : List Block} {left : Block} {after : Storage}

theorem KeyRound.span (round : KeyRound front rest block store left after) : left.span = block.span := by
  cases round with
  | attach _ _ => rfl
  | release _ _ _ _ pool => rw [Block.span, Block.span, pool]

theorem KeyRound.sameData (round : KeyRound front rest block store left after) : SameData store after := by
  cases round <;> rfl

theorem KeyRound.pos (round : KeyRound front rest block store left after)
    (pos : store.keyDiskStore.fd.pos = storageInitialReserved + spanOf front + block.span) :
    after.keyDiskStore.fd.pos = storageInitialReserved + spanOf front + block.span := by
  cases round with
  | attach _ _ => exact pos
  | release _ _ _ _ _ => rfl

theorem KeyRound.fewer (round : KeyRound front rest block store left after) :
    FewerLive (blockAt (front ++ block :: rest)) (blockAt (front ++ [left] ++ rest)) := by
  intro offset key found alive
  rw [List.append_assoc] at found
  cases round with
  | attach _ _ => exact found
  | release _ _ _ status pool =>
      exact (blockAt_released status (by rw [Block.span, Block.span, pool]) found alive).2

theorem KeyRound.passed (round : KeyRound front rest block store left after) (live : block.Live)
    (passed : KeysPassed front (block :: rest) store) : KeysPassed (front ++ [left]) rest after := by
  cases round with
  | attach member same => exact passed.attach live member same
  | release _ held quiet status pool => exact passed.release live held quiet status pool

theorem KeyRound.scanned (round : KeyRound front rest block store left after) (live : block.Live)
    (scanned : KeysScanned s content front (block :: rest) store) :
    KeysScanned s content (front ++ [left]) rest after := by
  cases round with
  | attach member same => exact scanned.attach live member same
  | release absent held quiet status pool => exact scanned.release live absent held quiet status pool

end

/-- A key block is attached to its item, or released when it has none. -/
theorem storageLoadKey_round {rest : List Block} (passed : KeysPassed front (block :: rest) store)
    (pos : store.keyDiskStore.fd.pos = storageInitialReserved + spanOf front + block.span) (live : block.Live) :
    (storageLoadKey (block.readAt (storageInitialReserved + spanOf front))).Ends store
      (fun _ after => ∃ left, KeyRound front rest block store left after)
      (fun failure _ => failure = .abort .storageLoadKey ∧ (blockKey block).getD 0 0 = 0) := by
  obtain ⟨valid, small, keyBlock⟩ := passed.loadable.readable _ _ (blockAt_here front rest block) live
  obtain ⟨length, room⟩ := keyBlock.length valid
  have named := keyOf_valid valid
  have some : 1 ≤ (blockKey block).length := valid.1
  unfold storageLoadKey
  rw [require_bind (by change 2 < block.payload.length; omega)]
  dsimp only
  change (require (2 + valueOf (block.payload.take 2) + 8 ≤ block.payload.length) .memory >>= fun _ =>
    require (valueOf (block.payload.take 2) ≠ 0 ∧ (blockKey block).getD 0 0 ≠ 0) .storageLoadKey >>= fun _ => _).Ends
      store _ _
  rw [require_bind (by rw [length]; exact room)]
  by_cases text : (blockKey block).getD 0 0 = 0
  · exact EStateM.ends_of_error
      (EStateM.bind_error (by rw [require_apply, if_neg fun both => both.2 text]) _) ⟨rfl, text⟩
  rw [require_bind ⟨by rw [length]; omega, text⟩]
  apply EStateM.ends_bind_ok (EStateM.modify_apply _ _)
  have counted : (if store.nextInternalId ≤ blockKeyId block then
      { store with nextInternalId := (blockKeyId block + 1) % 2 ^ 64 } else store) =
        { store with nextInternalId := store.counted (blockKeyId block) } := by
    unfold Storage.counted
    split
    · rw [Nat.mod_eq_of_lt (by omega)]
    · rfl
  change EStateM.Ends _ (if store.nextInternalId ≤ blockKeyId block then
    { store with nextInternalId := (blockKeyId block + 1) % 2 ^ 64 } else store) _ _
  rw [counted]
  cases found : store.items.find? fun item => item.internalId = blockKeyId block with
  | some item =>
      have member := List.mem_of_find?_eq_some found
      have same : item.internalId = blockKeyId block := by simpa using List.find?_some found
      have attached : storageAttachKeyToItem (blockKey block) (blockKeyId block)
          (storageInitialReserved + spanOf front)
          { store with nextInternalId := store.counted (blockKeyId block) } =
            .ok true (store.attached item (blockKey block) (storageInitialReserved + spanOf front)) := by
        unfold storageAttachKeyToItem
        rw [EStateM.bind_ok (EStateM.get_apply _)]
        dsimp only
        rw [found]
        dsimp only
        rw [require_bind (passed.unnamed live member same), named, Storage.attached, same]
        rfl
      apply EStateM.ends_bind_ok attached
      exact EStateM.ends_of_ok rfl ⟨block, .attach member same⟩
  | none =>
      have absent : ∀ item ∈ store.items, item.internalId ≠ blockKeyId block := by
        intro item member
        simpa using List.find?_eq_none.mp found item member
      have missing : storageAttachKeyToItem (blockKey block) (blockKeyId block)
          (storageInitialReserved + spanOf front)
          { store with nextInternalId := store.counted (blockKeyId block) } =
            .ok false { store with nextInternalId := store.counted (blockKeyId block) } := by
        unfold storageAttachKeyToItem
        rw [EStateM.bind_ok (EStateM.get_apply _)]
        dsimp only
        rw [found]
        rfl
      apply EStateM.ends_bind_ok missing
      have used : block.status ≠ .empty := by
        rcases live with status | status <;> rw [status] <;> simp
      obtain ⟨disk, empty, run, held, calm, status, pool, _⟩ := passed.disk.releaseAt passed.quiet rfl used
      obtain ⟨_, short⟩ := passed.disk.toDiskFiles.bounds rfl
      -- the descriptor is put back behind the block that was released
      have tell : mustLseek .fd 0 .cur store.keyDiskStore =
          .ok (storageInitialReserved + spanOf front + block.span) store.keyDiskStore := by
        have target : lseekTarget (store.keyDiskStore.file .fd) 0 .cur =
            storageInitialReserved + spanOf front + block.span := by
          rw [lseekTarget, Nat.add_zero]
          exact pos
        rw [mustLseek_run 0 .cur (by rw [target]; exact short), target, ← pos]
        rfl
      have restore : mustLseek .fd (storageInitialReserved + spanOf front + block.span) .set disk =
          .ok (storageInitialReserved + spanOf front + block.span)
            (disk.seekTo (storageInitialReserved + spanOf front + block.span)) :=
        mustLseek_run _ .set short
      have released : mustSucceed (diskStorageReleaseBlock (storageInitialReserved + spanOf front))
          .storageLoadRelease store.keyDiskStore = .ok () disk := by
        rw [mustSucceed, run]
      rw [if_pos (by rfl)]
      apply EStateM.ends_bind_ok
        (@onKeyStore_ok { store with nextInternalId := store.counted (blockKeyId block) } _ _ _ _ tell)
      apply EStateM.ends_bind_ok
        (@onKeyStore_ok { store with nextInternalId := store.counted (blockKeyId block) } _ _ _ _ released)
      apply EStateM.ends_bind_ok (@onKeyStore_ok { store with
        nextInternalId := store.counted (blockKeyId block), keyDiskStore := disk } _ _ _ _ restore)
      exact EStateM.ends_of_ok rfl ⟨empty, .release absent held calm status pool⟩

theorem storageLoadKey_ends {rest : List Block} (scanned : KeysScanned s content front (block :: rest) store)
    (pos : store.keyDiskStore.fd.pos = storageInitialReserved + spanOf front + block.span) (live : block.Live) :
    (storageLoadKey (block.readAt (storageInitialReserved + spanOf front))).Ends store
      (fun _ after => SameData store after ∧
        after.keyDiskStore.fd.pos = storageInitialReserved + spanOf front + block.span ∧
        ∃ passed, passed.span = block.span ∧ KeysScanned s content (front ++ [passed]) rest after ∧
          FewerLive (blockAt (front ++ block :: rest)) (blockAt (front ++ [passed] ++ rest)))
      (fun failure _ => failure = .abort .storageLoadKey ∧ (blockKey block).getD 0 0 = 0) := by
  apply (storageLoadKey_round scanned.passed pos live).mono
  · intro _ after done
    obtain ⟨left, round⟩ := done
    exact ⟨round.sameData, round.pos pos, left, round.span, round.scanned live scanned, round.fewer⟩
  · exact fun _ _ stopped => stopped

/-- The second loop of `storage_load`. -/
theorem storageLoadKeys_ends {keyBlocks : List Block} {items : List StorageItem} (loaded : ItemsCollected s content items)
    (same : store.items = items) (disk : DiskHolds store.keyDiskStore keyBlocks)
    (quiet : store.keyDiskStore.numBeforeCrash = none) (loadable : KeysLoadable (blockAt keyBlocks))
    (bounded : Bounded keyBound (blockAt keyBlocks)) (first : store.nextInternalId < 2 ^ 63)
    (known : ∀ item ∈ items, ∃ offset block, blockAt keyBlocks offset = some block ∧ block.Live ∧
      blockKeyId block = item.internalId) :
    (storageLoadKeys (store.keyDiskStore.fd.bytes.length + 1) true).Ends store
      (fun _ after => SameData store after ∧ ∃ later, KeysScanned s content later [] after ∧
        FewerLive (blockAt keyBlocks) (blockAt later))
      (fun failure _ => failure = .abort .storageLoadKey ∧ ∃ offset block, blockAt keyBlocks offset = some block ∧
        block.Live ∧ (blockKey block).getD 0 0 = 0) := by
  subst same
  have initial : onKeyStore (diskStorageReadBlocksFromStart true storageLoadMaxN) store =
      onKeyStore (diskStorageReadBlocksFromStart false storageLoadMaxN)
        { store with keyDiskStore := store.keyDiskStore.seekTo storageInitialReserved } := by
    unfold onKeyStore
    rw [readBlocksFromStart_initial]
  have length := disk.toDiskFiles.length
  have spans := spanOf_ge keyBlocks
  apply EStateM.ends_of_eq (loadBlocks_initial initial _)
  refine @loadBlocks_ends _ _ (fun back current => SameData store current ∧ ∃ front,
      current.keyDiskStore.fd.pos = storageInitialReserved + spanOf front ∧ KeysScanned s content front back current ∧
      FewerLive (blockAt keyBlocks) (blockAt (front ++ back)) ∧
      ∀ block ∈ back, ∃ offset, blockAt keyBlocks offset = some block) _ _
    ?_ _ keyBlocks _ ⟨rfl, [], rfl, ?_, fun _ _ found _ => found, ?_⟩ (by omega)
  · rintro back current ⟨data, front, pos, scanned, fewer, old⟩
    apply (onKeyStore_ends (readBlocksFromStart_ends scanned.disk.toDiskFiles pos)).mono
    · rintro result after ⟨moved, next, rfl⟩
      cases result with
      | none =>
          obtain ⟨⟨place, rfl⟩, dead⟩ := next
          rw [← List.append_nil back] at scanned
          refine ⟨?_, front ++ back, scanned.skip dead place, fewer⟩
          rw [SameData, data]
      | some found =>
          obtain ⟨dead, block, rest, behind, none, live, rfl, rfl⟩ := next
          have place : storageInitialReserved + spanOf front + spanOf dead =
              storageInitialReserved + spanOf (front ++ dead) := by
            rw [spanOf_append, Nat.add_assoc]
          rw [behind] at scanned
          have skipped := scanned.skip none (storageInitialReserved + spanOf (front ++ dead) + block.span)
          refine ⟨rest, by rw [behind]; simp; omega, ?_⟩
          rw [place]
          apply (storageLoadKey_ends skipped rfl live).mono
          · rintro _ final ⟨unchanged, pos, other, span, later, again⟩
            refine ⟨?_, front ++ dead ++ [other], ?_, later, ?_, ?_⟩
            · rw [SameData, unchanged, data]
            · rw [pos, spanOf_append (front ++ dead), spanOf_cons, spanOf_nil, span, Nat.add_zero, Nat.add_assoc]
            · intro offset key found alive
              have before := again offset key found alive
              rw [List.append_assoc, ← behind] at before
              exact fewer offset key before alive
            · intro other member
              exact old other (by rw [behind]; simp [member])
          · rintro failure final ⟨stopped, text⟩
            obtain ⟨offset, here⟩ := old block (by rw [behind]; simp)
            exact ⟨stopped, offset, block, here, live, text⟩
    · rintro failure after ⟨moved, ⟨_, block, member, large⟩, rfl⟩
      obtain ⟨offset, here⟩ := old block member
      have fits := bounded offset block here
      unfold keyBound at fits
      unfold storageLoadMaxN at large
      omega
  · have started : KeysPassed [] keyBlocks
        { store with keyDiskStore := store.keyDiskStore.seekTo storageInitialReserved } :=
      .start (disk.seekTo _) quiet loadable bounded loaded.ids (fun item member => (loaded.each item member).1) first
    apply started.scanned (fun item member => (loaded.each item member).2) loaded.owned
    intro item member
    obtain ⟨offset, block, found, live, id⟩ := known item member
    exact ⟨offset, block, found, live, id, Or.inl ⟨(loaded.each item member).1, by
      rw [spanOf_nil, Nat.add_zero]
      exact blockAt_ge found⟩⟩
  · intro block member
    obtain ⟨before, behind, split⟩ := List.append_of_mem member
    exact ⟨_, (blockAt_eq_some _ _ _).mpr ⟨before, behind, split, rfl⟩⟩

end

end Menoetius
