import Menoetius.StorageGet

/-
This file follows the first loop of `storage_load`, which collects the data blocks of every internal id.
-/

namespace Menoetius
open LittleEndian

/-- The rule for the loops of `storage_load`: one round takes at least one of the blocks that are left. -/
theorem loadBlocks_ends {read : Bool → StorageM (Option BlockRead)} {load : BlockRead → StorageM Unit}
    {invariant : List Block → Storage → Prop} {done : Storage → Prop} {stop : Failure → Storage → Prop}
    (round : ∀ back store, invariant back store → (read false).Ends store
      (fun result after =>
        match result with
        | none => done after
        | some found => ∃ rest, rest.length < back.length ∧
            (load found).Ends after (fun _ final => invariant rest final) stop)
      stop) (fuel : Nat) :
    ∀ (back : List Block) (store : Storage), invariant back store → back.length < fuel →
      (loadBlocks read load fuel false).Ends store (fun _ after => done after) stop := by
  induction fuel with
  | zero =>
      intro back store _ enough
      cases enough
  | succ fuel ih =>
      intro back store holds enough
      unfold loadBlocks
      apply EStateM.Ends.bind (round back store holds)
      intro result after next
      cases result with
      | none => exact EStateM.ends_of_ok rfl next
      | some found =>
          obtain ⟨rest, fewer, body⟩ := next
          apply EStateM.Ends.bind body
          intro _ final kept
          exact ih rest final kept (by omega)

theorem onDataStore_ends {α : Type} {store : Storage} {action : DiskM α} {post : α → DiskStorage → Prop}
    {stop : Failure → DiskStorage → Prop} (ends : action.Ends store.dataDiskStore post stop) :
    (onDataStore action).Ends store
      (fun value after => ∃ disk, post value disk ∧ after = { store with dataDiskStore := disk })
      fun failure after => ∃ disk, stop failure disk ∧ after = { store with dataDiskStore := disk } := by
  cases run : action store.dataDiskStore with
  | ok value after => exact EStateM.ends_of_ok (by simp only [onDataStore, run]) ⟨after, ends.of_ok run, rfl⟩
  | error failure after =>
      exact EStateM.ends_of_error (by simp only [onDataStore, run]) ⟨after, ends.of_error run, rfl⟩

/-- The stream of a data block, behind the internal id and the header of an active block. -/
def blockStream (block : Block) : List UInt8 :=
  if block.status.code = BlockStatus.active.code then (block.payload.drop 8).drop tscHeaderSerializationSize
  else block.payload.drop 8

/-- The start time that the loader reads from a block. -/
def blockStart (block : Block) : Word := tscStartTime (TscData.ofBytes (blockStream block).length (blockStream block))

/-- A data block with at least one point. -/
structure PointBlock (s internalId : Nat) (completeBlock : Bool) (points : List Point) (block : Block) : Prop extends
    DataBlock s internalId completeBlock points block where
  nonempty : points ≠ []
  positive : ∀ point ∈ points, 0 < point.1.toInt

section
variable {s internalId : Nat} {completeBlock : Bool} {points : List Point} {block : Block}

theorem Block.payload_le (block : Block) : block.payload.length ≤ 2 ^ 26 := by
  have known : (block.pool : Nat) < 20 := block.pool.isLt
  rw [block.whole, getPoolSize]
  exact Nat.pow_le_pow_right (by omega) (by unfold minDiskPowTwo; omega)

theorem DataBlock.stream (data : DataBlock s internalId completeBlock points block) :
    ∃ p rest, BlockHolds p points ∧ p.dataLen = s ∧ blockStream block = p.data.toBytes ++ rest ∧
      (completeBlock = false → block.payload.drop 8 = tscSerializeHeader p ++ (p.data.toBytes ++ rest)) := by
  obtain ⟨p, rest, holds, size, payload⟩ := data.image
  refine ⟨p, rest, holds, size, ?_, ?_⟩
  · unfold blockStream
    rw [data.status, payload, List.drop_left' (bytesOf_length _ _)]
    cases completeBlock
    · exact List.drop_left' (tscSerializeHeader_length p)
    · rfl
  · rintro rfl
    rw [payload, List.drop_left' (bytesOf_length _ _)]
    rfl

theorem PointBlock.start (data : PointBlock s internalId completeBlock points block) :
    points.head?.map Prod.fst = some (blockStart block) ∧ 0 < (blockStart block).toInt := by
  obtain ⟨p, rest, holds, size, stream, _⟩ := data.stream
  obtain ⟨point, later, rfl⟩ := List.exists_cons_of_ne_nil data.nonempty
  have bound := block.payload_le
  have length : (blockStream block).length ≤ block.payload.length := by
    unfold blockStream
    split <;> simp
  have whole := holds.toBytes_length
  have first : blockStart block = point.1 := by
    unfold blockStart
    rw [stream] at length ⊢
    rw [List.length_append] at length ⊢
    exact holds.startTime_ofBytes _ rest (by omega) (by unfold maxNumValidBits; omega) (by omega)
  rw [first]
  exact ⟨rfl, data.positive point List.mem_cons_self⟩

/-- The bytes of a block determine its points. -/
theorem DataBlock.points_eq {other : List Point} (first : DataBlock s internalId completeBlock points block)
    (second : DataBlock s internalId completeBlock other block) : points = other := by
  obtain ⟨p, rest, holds, size, stream, _⟩ := first.stream
  obtain ⟨q, more, holds', size', stream', _⟩ := second.stream
  have read := holds.iterRun_ofBytes s rest (by omega) (by rw [← size]; exact holds.bounded) (by omega)
  have read' := holds'.iterRun_ofBytes s more (by omega) (by rw [← size']; exact holds'.bounded) (by omega)
  rw [← stream] at read
  rw [← stream', read] at read'
  exact (Prod.mk.inj read').1

end

/-- One more block has been scanned. -/
structure Grown (content later : Nat → Option Block) (place : Nat) (block : Block) : Prop where
  kept : ∀ offset old, content offset = some old → later offset = some old
  old : ∀ offset old, later offset = some old → old.Live → content offset = some old ∨ offset = place ∧ old = block
  here : later place = some block
  fresh : content place = none
  behind : ∀ offset old, content offset = some old → offset < place
  positive : 0 < place

/-- The order of the data offsets: by start time, then by place. -/
def OffsetAndTime.Before (first second : OffsetAndTime) : Prop :=
  first.startTime.toInt < second.startTime.toInt ∨
    first.startTime.toInt = second.startTime.toInt ∧ first.offset < second.offset

/-- What the loader has collected for an internal id. -/
structure Collected (s : Nat) (content : Nat → Option Block) (item : StorageItem) : Prop where
  small : item.internalId < 2 ^ 63
  dataLen : item.data.dataLen = s
  entries : ∀ entry ∈ item.dataOffsets, ∃ block completeBlock points, content entry.offset = some block ∧
    PointBlock s item.internalId completeBlock points block ∧ entry.startTime = blockStart block
  distinct : (item.dataOffsets.map OffsetAndTime.offset).Nodup
  owned : ∀ offset block, content offset = some block → block.Live → carriedId block = item.internalId →
    offset ∈ item.dataOffsets.map OffsetAndTime.offset
  sorted : item.dataOffsets.Pairwise OffsetAndTime.Before
  stream : (BlockHolds item.data [] ∧ ∀ offset block, content offset = some block → block.Live →
      carriedId block = item.internalId → block.status = .valid) ∨
    ∃ offset block points, content offset = some block ∧
      PointBlock s item.internalId false points block ∧ BlockHolds item.data points

theorem insertOffset_perm (entry : OffsetAndTime) (entries : List OffsetAndTime) :
    (insertOffset entry entries).1.Perm (entry :: entries) := by
  induction entries with
  | nil => exact .refl _
  | cons first rest ih =>
      unfold insertOffset
      split
      · exact .refl _
      · exact (ih.cons first).trans (.swap _ _ _)

theorem insertOffset_last (entry : OffsetAndTime) (entries : List OffsetAndTime) :
    (insertOffset entry entries).2 = false →
      ∃ other ∈ entries, entry.startTime.toInt < other.startTime.toInt := by
  induction entries with
  | nil =>
      intro flag
      cases flag
  | cons first rest ih =>
      intro flag
      unfold insertOffset at flag
      split at flag
      · rename_i less
        exact ⟨first, List.mem_cons_self, less⟩
      · obtain ⟨other, member, less⟩ := ih flag
        exact ⟨other, List.mem_cons_of_mem _ member, less⟩

theorem insertOffset_sorted (entry : OffsetAndTime) (entries : List OffsetAndTime)
    (sorted : entries.Pairwise OffsetAndTime.Before) (behind : ∀ other ∈ entries, other.offset < entry.offset) :
    (insertOffset entry entries).1.Pairwise OffsetAndTime.Before := by
  induction entries with
  | nil => exact List.pairwise_singleton _ _
  | cons first rest ih =>
      obtain ⟨least, sorted⟩ := List.pairwise_cons.mp sorted
      obtain ⟨lower, behind⟩ := List.forall_mem_cons.mp behind
      unfold insertOffset
      split
      · rename_i less
        refine List.pairwise_cons.mpr ⟨?_, List.pairwise_cons.mpr ⟨least, sorted⟩⟩
        intro other member
        rcases List.mem_cons.mp member with rfl | later
        · exact Or.inl less
        · rcases least other later with before | ⟨same, _⟩
          · exact Or.inl (lt_trans less before)
          · exact Or.inl (by rw [← same]; exact less)
      · rename_i less
        refine List.pairwise_cons.mpr ⟨?_, ih sorted behind⟩
        intro other member
        rcases List.mem_cons.mp ((insertOffset_perm entry rest).mem_iff.mp member) with rfl | later
        · rcases lt_or_eq_of_le (not_lt.mp less) with before | same
          · exact Or.inl before
          · exact Or.inr ⟨same, lower⟩
        · exact least other later

/-- The item with one more block. -/
def StorageItem.added (item : StorageItem) (place : Nat) (startTime : Word) : StorageItem :=
  { item with dataOffsets := (insertOffset ⟨place, startTime⟩ item.dataOffsets).1 }

section
variable {s place : Nat} {content later : Nat → Option Block} {item : StorageItem} {block : Block}
  {completeBlock : Bool} {points : List Point}

/-- A block of another internal id. -/
theorem Collected.other (holds : Collected s content item) (grown : Grown content later place block)
    (different : carriedId block ≠ item.internalId) : Collected s later item := by
  refine { holds with entries := ?_, owned := ?_, stream := ?_ }
  · intro entry member
    obtain ⟨old, complete, points, found, data, start⟩ := holds.entries entry member
    exact ⟨old, complete, points, grown.kept _ _ found, data, start⟩
  · intro offset old found live carried
    rcases grown.old offset old found live with found | ⟨rfl, rfl⟩
    · exact holds.owned offset old found live carried
    · exact absurd carried different
  · rcases holds.stream with ⟨clear, complete⟩ | ⟨offset, old, points, found, data, stream⟩
    · refine Or.inl ⟨clear, ?_⟩
      intro offset old found live carried
      rcases grown.old offset old found live with found | ⟨rfl, rfl⟩
      · exact complete offset old found live carried
      · exact absurd carried different
    · exact Or.inr ⟨offset, old, points, grown.kept _ _ found, data, stream⟩

/-- The block of an item is added to its data offsets. Its stream is given separately. -/
theorem Collected.insert (holds : Collected s content item) (grown : Grown content later place block)
    (data : PointBlock s item.internalId completeBlock points block) (stream : TscHeader)
    (size : stream.dataLen = s)
    (loaded : (BlockHolds stream [] ∧ ∀ offset block, later offset = some block → block.Live →
        carriedId block = item.internalId → block.status = .valid) ∨
      ∃ offset block points, later offset = some block ∧
        PointBlock s item.internalId false points block ∧ BlockHolds stream points) :
    Collected s later { item.added place (blockStart block) with data := stream } := by
  have perm := insertOffset_perm ⟨place, blockStart block⟩ item.dataOffsets
  have offsets := perm.map OffsetAndTime.offset
  have outside : place ∉ item.dataOffsets.map OffsetAndTime.offset := by
    intro member
    obtain ⟨entry, present, same⟩ := List.mem_map.mp member
    obtain ⟨old, _, _, found, _, _⟩ := holds.entries entry present
    rw [same, grown.fresh] at found
    cases found
  refine
    { small := holds.small
      dataLen := size
      entries := ?_
      distinct := offsets.nodup_iff.mpr (List.nodup_cons.mpr ⟨outside, holds.distinct⟩)
      owned := ?_
      sorted := insertOffset_sorted _ _ holds.sorted ?_
      stream := loaded }
  · intro entry member
    rcases List.mem_cons.mp (perm.mem_iff.mp member) with rfl | present
    · exact ⟨block, completeBlock, points, grown.here, data, rfl⟩
    · obtain ⟨old, complete, points, found, data, start⟩ := holds.entries entry present
      exact ⟨old, complete, points, grown.kept _ _ found, data, start⟩
  · intro offset old found live carried
    apply offsets.mem_iff.mpr
    rw [List.map_cons]
    rcases grown.old offset old found live with found | ⟨rfl, _⟩
    · exact List.mem_cons_of_mem _ (holds.owned offset old found live carried)
    · exact List.mem_cons_self
  · intro entry present
    obtain ⟨old, _, _, found, _, _⟩ := holds.entries entry present
    exact grown.behind _ _ found

/-- A new internal id. -/
theorem Collected.fresh {internalId : Nat} {data : TscHeader} (stream : BlockHolds data [])
    (dataLen : data.dataLen = s) (small : internalId < 2 ^ 63)
    (unused : ∀ offset block, content offset = some block → block.Live → carriedId block ≠ internalId) :
    Collected s content ⟨internalId, none, data, 0, []⟩ where
  small := small
  dataLen := dataLen
  entries := by
    intro entry member
    cases member
  distinct := List.nodup_nil
  owned := fun offset block found live carried => absurd carried (unused offset block found live)
  sorted := .nil
  stream := Or.inl ⟨stream, fun offset block found live carried => absurd carried (unused offset block found live)⟩

end

/-- The items that the first loop has made from the blocks scanned so far. -/
structure ItemsCollected (s : Nat) (content : Nat → Option Block) (items : List StorageItem) : Prop where
  ids : (items.map StorageItem.internalId).Nodup
  each : ∀ item ∈ items, item.key = none ∧ item.dataOffsets ≠ [] ∧ Collected s content item
  owned : ∀ offset block, content offset = some block → block.Live →
    ∃ item ∈ items, carriedId block = item.internalId

/-- The item that a block is added to has been found or made. -/
structure ItemReady (s : Nat) (content : Nat → Option Block) (items : List StorageItem) (item : StorageItem) :
    Prop where
  ids : (items.map StorageItem.internalId).Nodup
  member : item ∈ items
  unnamed : item.key = none
  own : Collected s content item
  others : ∀ other ∈ items, other.internalId ≠ item.internalId →
    other.key = none ∧ other.dataOffsets ≠ [] ∧ Collected s content other
  owned : ∀ offset block, content offset = some block → block.Live →
    ∃ item ∈ items, carriedId block = item.internalId

section
variable {s place : Nat} {content later : Nat → Option Block} {store : Storage} {item : StorageItem} {block : Block}
  {completeBlock : Bool} {points : List Point}

theorem withItem_withItem {first second : ItemStore} (same : first.item.internalId = second.item.internalId) :
    (store.withItem first).withItem second = store.withItem second := by
  unfold Storage.withItem
  dsimp only
  rw [List.map_map]
  congr 1
  apply List.map_congr_left
  intro other _
  rw [Function.comp_apply, same]
  split <;> rfl

/-- A second function on the same item. -/
theorem onItem_again {α : Type} {action : ItemM α} {value : α} {state after : ItemStore}
    (distinct : (store.items.map StorageItem.internalId).Nodup) (member : item ∈ store.items)
    (same : state.item.internalId = item.internalId) (run : action state = .ok value after)
    (kept : after.item.internalId = item.internalId) :
    onItem item.internalId action (store.withItem state) = .ok value (store.withItem after) := by
  have present : state.item ∈ (store.withItem state).items :=
    (@mem_withItem store item state member same _).mpr (Or.inl rfl)
  have once := @onItem_ok α (store.withItem state) state.item action value after
    (by rw [withItem_map _ distinct member same same]; exact distinct) present run
  rw [same, withItem_withItem (same.trans kept.symm)] at once
  exact once

/-- The item is found, or made without any block. -/
theorem storagePlaceholder_run (loaded : ItemsCollected s content store.items) (config : store.initialTscBufSize = s)
    (large : 4 < s) (bounded : s * 8 ≤ maxNumValidBits) {internalId : Nat} (small : internalId < 2 ^ 63) :
    ∃ items item, ItemReady s content items item ∧ item.internalId = internalId ∧
      storagePlaceholder internalId store = .ok () { store with items := items } := by
  unfold storagePlaceholder
  rw [EStateM.bind_ok (EStateM.get_apply store)]
  cases found : store.items.find? fun item => item.internalId = internalId with
  | some item =>
      have member := List.mem_of_find?_eq_some found
      have same : item.internalId = internalId := by simpa using List.find?_some found
      obtain ⟨unnamed, _, own⟩ := loaded.each item member
      exact ⟨store.items, item, ⟨loaded.ids, member, unnamed, own, fun other present _ => loaded.each other present,
        loaded.owned⟩, same, rfl⟩
  | none =>
      have absent : ∀ item ∈ store.items, item.internalId ≠ internalId := by
        intro item member
        simpa using List.find?_eq_none.mp found item member
      obtain ⟨data, made, stream, dataLen⟩ := storageItemNew_run store none internalId
        (by rw [config]; exact large) (by rw [config]; exact bounded)
      refine ⟨store.items ++ [⟨internalId, none, data, 0, []⟩], ⟨internalId, none, data, 0, []⟩, ?_, rfl, ?_⟩
      · refine
          { ids := ?_
            member := List.mem_append_right _ List.mem_cons_self
            unnamed := rfl
            own := .fresh stream (dataLen.trans config) small ?_
            others := ?_
            owned := ?_ }
        · rw [List.map_append, List.nodup_append]
          refine ⟨loaded.ids, by simp, ?_⟩
          rintro first inItems second inNew rfl
          rw [List.map_singleton, List.mem_singleton] at inNew
          obtain ⟨other, present, same⟩ := List.mem_map.mp inItems
          exact absent other present (same.trans inNew)
        · intro offset block found live carried
          obtain ⟨other, present, same⟩ := loaded.owned offset block found live
          exact absent other present (same.symm.trans carried)
        · intro other present different
          rcases List.mem_append.mp present with old | new
          · exact loaded.each other old
          · rw [List.mem_singleton.mp new] at different
            exact absurd rfl different
        · intro offset block found live
          obtain ⟨other, present, same⟩ := loaded.owned offset block found live
          exact ⟨other, List.mem_append_left _ present, same⟩
      · dsimp only
        unfold storageInsertItem
        rw [EStateM.bind_ok (EStateM.get_apply store), made]
        rfl

/-- The item is put back with the block that was added to it. -/
theorem ItemReady.put (ready : ItemReady s content store.items item) (grown : Grown content later place block)
    (carried : carriedId block = item.internalId) {state : ItemStore}
    (same : state.item.internalId = item.internalId) (unnamed : state.item.key = none)
    (some : state.item.dataOffsets ≠ []) (own : Collected s later state.item) :
    ItemsCollected s later (store.withItem state).items := by
  have members := fun other => @mem_withItem store item state ready.member same other
  refine ⟨?_, ?_, ?_⟩
  · rw [withItem_map _ ready.ids ready.member same same]
    exact ready.ids
  · intro other present
    rcases (members other).mp present with rfl | ⟨old, elsewhere⟩
    · exact ⟨unnamed, some, own⟩
    · obtain ⟨unnamed, some, collected⟩ := ready.others other old elsewhere
      exact ⟨unnamed, some, collected.other grown (by rw [carried]; exact elsewhere.symm)⟩
  · intro offset old found live
    by_cases mine : carriedId old = item.internalId
    · exact ⟨state.item, (members _).mpr (Or.inl rfl), mine.trans same.symm⟩
    · rcases grown.old offset old found live with before | ⟨_, rfl⟩
      · obtain ⟨other, present, here⟩ := ready.owned offset old before live
        exact ⟨other, (members _).mpr (Or.inr ⟨present, by rw [← here]; exact mine⟩), here⟩
      · exact absurd carried mine

/-- The block is added to the data offsets of its item. -/
theorem storageInsertDataBlock_run (loaded : ItemsCollected s content store.items)
    (config : store.initialTscBufSize = s) (positive : 0 < place)
    (data : PointBlock s (carriedId block) completeBlock points block) (small : carriedId block < 2 ^ 63) :
    ∃ (base : Storage) (item : StorageItem), base = { store with items := base.items } ∧ ItemReady s content base.items item ∧
      item.internalId = carriedId block ∧
      storageInsertDataBlockDuringInitialLoad (carriedId block) place (blockStart block) store =
        .ok (insertOffset ⟨place, blockStart block⟩ item.dataOffsets).2
          (base.withItem ⟨item.added place (blockStart block), store.dataDiskStore⟩) := by
  obtain ⟨p, _, holds, size, _, _⟩ := data.stream
  obtain ⟨items, item, ready, same, found⟩ := storagePlaceholder_run loaded config
    (by rw [← size]; exact holds.large) (by rw [← size]; exact holds.bounded) small
  refine ⟨{ store with items := items }, item, rfl, ready, same, ?_⟩
  unfold storageInsertDataBlockDuringInitialLoad
  rw [EStateM.bind_ok found, require_bind positive, ← same]
  exact @onItem_ok Bool { store with items := items } item _ _ _ ready.ids ready.member rfl

/-- One round of the first loop. -/
theorem storageLoadBlock_ends (loaded : ItemsCollected s content store.items)
    (config : store.initialTscBufSize = s) (grown : Grown content later place block)
    (data : PointBlock s (carriedId block) completeBlock points block) (small : carriedId block < 2 ^ 63) :
    (storageLoadBlock (block.readAt place)).Ends store
      (fun _ after => ∃ items, ItemsCollected s later items ∧ after = { store with items := items })
      (fun failure _ => failure = .abort .storageLoadLastBlock ∧ block.status = .active ∧ ∃ offset other,
        content offset = some other ∧ other.Live ∧ carriedId other = carriedId block ∧
          (blockStart block).toInt < (blockStart other).toInt) := by
  have size := getPoolSize_ge block.pool
  have whole := block.whole
  obtain ⟨_, time⟩ := data.start
  have nonzero : blockStart block ≠ 0#64 := by
    intro zero
    rw [zero] at time
    exact absurd time (by decide)
  obtain ⟨base, item, begun, ready, same, inserted⟩ :=
    storageInsertDataBlock_run loaded config grown.positive data small
  have known : (block.readAt place).status = BlockStatus.valid.code ∨
      (block.readAt place).status = BlockStatus.active.code := by
    rcases data.live with status | status
    · exact Or.inl (congrArg BlockStatus.code status)
    · exact Or.inr (congrArg BlockStatus.code status)
  have perm := insertOffset_perm ⟨place, blockStart block⟩ item.dataOffsets
  have nonempty : (insertOffset ⟨place, blockStart block⟩ item.dataOffsets).1 ≠ [] := by
    intro nil
    rw [nil] at perm
    exact absurd perm.length_eq (by simp)
  unfold storageLoadBlock
  rw [if_neg (by change ¬ block.payload.length ≤ 8 + 2 + 8; omega)]
  dsimp only
  rw [require_bind known]
  have start : tscStartTime (TscData.ofBytes
      (if (block.readAt place).status = BlockStatus.active.code then
        ((block.readAt place).buf.drop 8).drop tscHeaderSerializationSize
      else (block.readAt place).buf.drop 8).length
      (if (block.readAt place).status = BlockStatus.active.code then
        ((block.readAt place).buf.drop 8).drop tscHeaderSerializationSize
      else (block.readAt place).buf.drop 8)) = blockStart block := rfl
  rw [start, require_bind nonzero]
  apply EStateM.ends_bind_ok inserted
  by_cases active : block.status = .active
  · have isActive : (block.readAt place).status = BlockStatus.active.code := congrArg BlockStatus.code active
    have open_ : completeBlock = false := by
      have status := data.status
      cases completeBlock
      · rfl
      · rw [active] at status
        cases status
    subst open_
    rw [if_pos isActive, if_pos isActive]
    cases flag : (insertOffset ⟨place, blockStart block⟩ item.dataOffsets).2 with
    | true =>
        rw [require_bind rfl]
        obtain ⟨p, rest, holds, size, stream, payload⟩ := data.stream
        obtain ⟨loadedData, run, kept, dataLen⟩ := tscLoadBlock_run holds item.data
          (ready.own.dataLen.trans size.symm) (p.data.toBytes ++ rest) rest
        rw [← payload rfl, ← stream] at run
        have own := ready.own.insert grown (by rw [same]; exact data) loadedData (dataLen.trans size)
          (Or.inr ⟨place, block, points, grown.here, by rw [same]; exact data, kept⟩)
        have active_ : storageLoadActive (block.payload.drop 8) (blockStream block)
            ⟨item.added place (blockStart block), store.dataDiskStore⟩ =
              .ok () ⟨{ item.added place (blockStart block) with data := loadedData }, store.dataDiskStore⟩ := by
          unfold storageLoadActive
          rw [EStateM.bind_ok (EStateM.get_apply _)]
          change (ofExcept (tscLoadBlock item.data _ _) >>= _) _ = _
          rw [run]
          rfl
        have once := @onItem_again base item Unit _ () _ _ ready.ids ready.member rfl active_ rfl
        rw [same] at once
        have stream_ : blockStream block = ((block.readAt place).buf.drop 8).drop tscHeaderSerializationSize :=
          if_pos isActive
        rw [stream_] at once
        have collected := @ItemReady.put s place content later base item block ready grown same.symm
          ⟨{ item.added place (blockStart block) with data := loadedData }, store.dataDiskStore⟩ rfl ready.unnamed
          nonempty own
        refine EStateM.ends_of_ok once ⟨_, collected, ?_⟩
        rw [begun]
        rfl
    | false =>
        obtain ⟨entry, member, less⟩ := insertOffset_last _ _ flag
        obtain ⟨other, _, _, found, old, begins⟩ := ready.own.entries entry member
        refine EStateM.ends_of_error (EStateM.bind_error (by rw [require_apply, if_neg (by simp)]) _)
          ⟨rfl, active, entry.offset, other, found, old.live, ?_, ?_⟩
        · rw [old.carries (by have below := ready.own.small; omega), same]
        · rw [← begins]
          exact less
  · have status : block.status = .valid := by
      rcases data.live with valid | isActive
      · exact valid
      · exact absurd isActive active
    have complete : ¬ (block.readAt place).status = BlockStatus.active.code := by
      change ¬ block.status.code = _
      rw [status]
      decide
    rw [if_neg complete]
    refine EStateM.ends_of_ok rfl ⟨_, ready.put grown same.symm rfl ready.unnamed nonempty ?_,
      by rw [begun]; rfl⟩
    apply ready.own.insert grown (by rw [same]; exact data) item.data ready.own.dataLen
    rcases ready.own.stream with ⟨clear, valid⟩ | ⟨offset, old, points, found, copy, stream⟩
    · refine Or.inl ⟨clear, ?_⟩
      intro offset old found live carried
      rcases grown.old offset old found live with found | ⟨_, rfl⟩
      · exact valid offset old found live carried
      · exact status
    · exact Or.inr ⟨offset, old, points, grown.kept _ _ found, copy, stream⟩

end

theorem blockAt_append (front more : List Block) (offset : Nat) :
    blockAt (front ++ more) offset =
      (blockAt front offset).or ((placed (storageInitialReserved + spanOf front) more).lookup offset) := by
  unfold blockAt
  rw [placed_append, List.lookup_append]

theorem blockAt_append_of_some {front more : List Block} {offset : Nat} {block : Block}
    (found : blockAt front offset = some block) : blockAt (front ++ more) offset = some block := by
  rw [blockAt_append, found]
  rfl

theorem blockAt_append_live {front more : List Block} {offset : Nat} {block : Block}
    (found : blockAt (front ++ more) offset = some block) :
    blockAt front offset = some block ∨
      ∃ before behind, more = before ++ block :: behind ∧
        offset = storageInitialReserved + spanOf front + spanOf before := by
  rw [blockAt_append, Option.or_eq_some_iff] at found
  rcases found with old | ⟨_, new⟩
  · exact Or.inl old
  · exact Or.inr ((lookup_placed _ _ _ _).mp new)

/-- Blocks that are not in use collect nothing. -/
theorem ItemsCollected.dead {s : Nat} {front dead : List Block} {items : List StorageItem}
    (loaded : ItemsCollected s (blockAt front) items) (none : ∀ block ∈ dead, ¬ block.Live) :
    ItemsCollected s (blockAt (front ++ dead)) items := by
  have old : ∀ offset block, blockAt (front ++ dead) offset = some block → block.Live →
      blockAt front offset = some block := by
    intro offset block found live
    rcases blockAt_append_live found with before | ⟨first, rest, split, _⟩
    · exact before
    · exact absurd live (none block (by rw [split]; simp))
  refine ⟨loaded.ids, ?_, fun offset block found live => loaded.owned offset block (old offset block found live) live⟩
  intro item member
  obtain ⟨unnamed, some, own⟩ := loaded.each item member
  refine ⟨unnamed, some, { own with entries := ?_, owned := ?_, stream := ?_ }⟩
  · intro entry present
    obtain ⟨block, complete, points, found, data, start⟩ := own.entries entry present
    exact ⟨block, complete, points, blockAt_append_of_some found, data, start⟩
  · intro offset block found live carried
    exact own.owned offset block (old offset block found live) live carried
  · rcases own.stream with ⟨clear, valid⟩ | ⟨offset, block, points, found, data, stream⟩
    · exact Or.inl ⟨clear, fun offset block found live carried =>
        valid offset block (old offset block found live) live carried⟩
    · exact Or.inr ⟨offset, block, points, blockAt_append_of_some found, data, stream⟩

/-- The next block in use behind some that are not. -/
theorem blockAt_grown (front : List Block) (block : Block) :
    Grown (blockAt front) (blockAt (front ++ [block])) (storageInitialReserved + spanOf front) block where
  kept := fun _ _ found => blockAt_append_of_some found
  old := by
    intro offset old found _
    rw [blockAt_concat] at found
    by_cases here : offset = storageInitialReserved + spanOf front
    · rw [here, Function.update_self] at found
      exact Or.inr ⟨here, (Option.some.inj found).symm⟩
    · rw [Function.update_of_ne here] at found
      exact Or.inl found
  here := by rw [blockAt_concat, Function.update_self]
  fresh := blockAt_end front
  behind := by
    intro offset old found
    obtain ⟨first, rest, split, place⟩ := (blockAt_eq_some _ _ _).mp found
    have positive := old.span_pos
    have span : spanOf front = spanOf first + (old.span + spanOf rest) := by
      rw [split, spanOf_append, spanOf_cons]
    omega
  positive := by
    unfold storageInitialReserved
    omega

/-- The blocks of a data store can be loaded. -/
def Loadable (s : Nat) (content : Nat → Option Block) : Prop :=
  ∀ offset block, content offset = some block → block.Live →
    carriedId block < 2 ^ 63 ∧ ∃ completeBlock points, PointBlock s (carriedId block) completeBlock points block

/-- How the first loop can fail: a block is too large for the buffer, or an active block starts before
another block of its item. -/
def LoadDataFails (content : Nat → Option Block) (failure : Failure) : Prop :=
  (failure = .code (.res 2) ∧ ¬ Bounded storageLoadMaxN content) ∨
    failure = .abort .storageLoadLastBlock ∧ ∃ place block offset other, content place = some block ∧
      block.status = .active ∧ content offset = some other ∧ other.Live ∧ carriedId other = carriedId block ∧
      (blockStart block).toInt < (blockStart other).toInt

theorem loadBlocks_initial {read : Bool → StorageM (Option BlockRead)} {load : BlockRead → StorageM Unit}
    {store begun : Storage} (same : read true store = read false begun) (fuel : Nat) :
    loadBlocks read load (fuel + 1) true store = loadBlocks read load (fuel + 1) false begun := by
  unfold loadBlocks
  rw [EStateM.bind_apply, EStateM.bind_apply, same]

/-- The storage during the first loop. -/
def Storage.collecting (store : Storage) (items : List StorageItem) (pos : Nat) : Storage :=
  { store with items := items, dataDiskStore := store.dataDiskStore.seekTo pos }

/-- The first loop of `storage_load`. -/
theorem storageLoadData_ends {s : Nat} {store : Storage} {dataBlocks : List Block} (config : store.initialTscBufSize = s)
    (none : store.items = []) (disk : DiskHolds store.dataDiskStore dataBlocks)
    (loadable : Loadable s (blockAt dataBlocks)) :
    (storageLoadData (store.dataDiskStore.fd.bytes.length + 1) true).Ends store
      (fun _ after => ∃ items pos, ItemsCollected s (blockAt dataBlocks) items ∧
        after = store.collecting items pos)
      (fun failure _ => LoadDataFails (blockAt dataBlocks) failure) := by
  have first : onDataStore (diskStorageReadBlocksFromStart true storageLoadMaxN) store =
      onDataStore (diskStorageReadBlocksFromStart false storageLoadMaxN)
        { store with dataDiskStore := store.dataDiskStore.seekTo storageInitialReserved } := by
    unfold onDataStore
    rw [readBlocksFromStart_initial]
  have length := disk.toDiskFiles.length
  have spans := spanOf_ge dataBlocks
  apply EStateM.ends_of_eq (loadBlocks_initial first _)
  refine @loadBlocks_ends _ _ (fun back current => ∃ front items, dataBlocks = front ++ back ∧
      ItemsCollected s (blockAt front) items ∧
      current = store.collecting items (storageInitialReserved + spanOf front)) _ _
    ?_ _ dataBlocks _ ⟨[], [], rfl, ⟨List.nodup_nil, by simp, ?_⟩, ?_⟩ (by omega)
  · rintro back current ⟨front, items, split, loaded, rfl⟩
    have files : DiskFiles (store.dataDiskStore.seekTo (storageInitialReserved + spanOf front)) (front ++ back) := by
      rw [← split]
      exact disk.toDiskFiles.fd_moved _
    apply (@onDataStore_ends _ (store.collecting items (storageInitialReserved + spanOf front)) _ _ _
      (readBlocksFromStart_ends files rfl)).mono
    · rintro result after ⟨moved, next, rfl⟩
      cases result with
      | none =>
          obtain ⟨⟨pos, rfl⟩, dead⟩ := next
          refine ⟨items, pos, ?_, rfl⟩
          rw [split]
          exact loaded.dead dead
      | some found =>
          obtain ⟨dead, block, rest, behind, none, live, rfl, rfl⟩ := next
          have here : blockAt dataBlocks (storageInitialReserved + spanOf (front ++ dead)) = some block := by
            rw [blockAt_eq_some]
            exact ⟨front ++ dead, rest, by rw [split, behind, List.append_assoc], rfl⟩
          obtain ⟨small, complete, points, data⟩ := loadable _ _ here live
          have place : storageInitialReserved + spanOf front + spanOf dead =
              storageInitialReserved + spanOf (front ++ dead) := by
            rw [spanOf_append, Nat.add_assoc]
          refine ⟨rest, by rw [behind]; simp; omega, ?_⟩
          rw [place]
          change (storageLoadBlock _).Ends
            (store.collecting items (storageInitialReserved + spanOf (front ++ dead) + block.span)) _ _
          apply (@storageLoadBlock_ends s _ _ _ (store.collecting items _) _ _ _ (loaded.dead none) config
            (blockAt_grown (front ++ dead) block) data small).mono
          · rintro _ final ⟨more, collected, rfl⟩
            refine ⟨front ++ dead ++ [block], more, ?_, collected, ?_⟩
            · rw [split, behind]
              simp
            · have next : storageInitialReserved + spanOf (front ++ dead ++ [block]) =
                  storageInitialReserved + spanOf (front ++ dead) + block.span := by
                rw [spanOf_append (front ++ dead), spanOf_cons, spanOf_nil, Nat.add_zero, Nat.add_assoc]
              rw [next]
              rfl
          · rintro failure final ⟨same, active, offset, other, found, alive, carried, less⟩
            refine Or.inr ⟨same, _, block, offset, other, here, active, ?_, alive, carried, less⟩
            rw [split, behind, ← List.append_assoc]
            exact blockAt_append_of_some found
    · rintro failure after ⟨moved, ⟨same, block, member, large⟩, rfl⟩
      refine Or.inl ⟨same, ?_⟩
      intro bounded
      obtain ⟨before, behind, there⟩ := List.append_of_mem member
      have found : blockAt dataBlocks (storageInitialReserved + spanOf (front ++ before)) = some block := by
        rw [blockAt_eq_some]
        exact ⟨front ++ before, behind, by rw [split, there, List.append_assoc], rfl⟩
      exact absurd (bounded _ _ found) (Nat.not_le.mpr large)
  · intro offset block found
    cases found
  · rw [none]
    rfl

end Menoetius
