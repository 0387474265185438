import Menoetius.StorageItem

/-
This file follows `storage_write_disk` and the loop of `storage_write` on one item.
-/

namespace Menoetius
open LittleEndian

/-- An item and the store of its blocks keep this timeseries. -/
structure ItemAt (s : Nat) (blocks : List Block) (state : ItemStore) (series : Series) : Prop where
  disk : DiskHolds state.dataDiskStore blocks
  quiet : state.dataDiskStore.numBeforeCrash = none
  item : ItemHolds s (blockAt blocks) state.item series

/-- What a function on one item may change. -/
structure ItemChange (s : Nat) (blocks later : List Block) (before after : ItemStore) : Prop where
  disk : DiskHolds after.dataDiskStore later
  quiet : after.dataDiskStore.numBeforeCrash = none
  internalId : after.item.internalId = before.item.internalId
  key : after.item.key = before.item.key
  keyStorageOffset : after.item.keyStorageOffset = before.item.keyStorageOffset
  frame : Frame before.item.internalId (blockAt blocks) (blockAt later)
  bounded : Bounded (blockBound s) (blockAt blocks) → Bounded (blockBound s) (blockAt later)

/-- A change that leaves the item with this timeseries. -/
structure ItemStep (s : Nat) (blocks later : List Block) (before after : ItemStore) (series : Series) : Prop extends
    ItemChange s blocks later before after where
  item : ItemHolds s (blockAt later) after.item series

section
variable {s : Nat} {blocks middle later : List Block} {state next after : ItemStore} {series changed : Series}

theorem ItemChange.refl (disk : DiskHolds state.dataDiskStore blocks)
    (quiet : state.dataDiskStore.numBeforeCrash = none) : ItemChange s blocks blocks state state :=
  ⟨disk, quiet, rfl, rfl, rfl, Frame.refl _ _, id⟩

theorem ItemChange.trans (first : ItemChange s blocks middle state next)
    (second : ItemChange s middle later next after) : ItemChange s blocks later state after where
  disk := second.disk
  quiet := second.quiet
  internalId := second.internalId.trans first.internalId
  key := second.key.trans first.key
  keyStorageOffset := second.keyStorageOffset.trans first.keyStorageOffset
  frame := first.frame.trans (by rw [← first.internalId]; exact second.frame)
  bounded := fun before => second.bounded (first.bounded before)

theorem ItemStep.toItemAt (step : ItemStep s blocks later state after series) : ItemAt s later after series :=
  ⟨step.disk, step.quiet, step.item⟩

theorem ItemAt.step (holds : ItemAt s blocks state series) : ItemStep s blocks blocks state state series :=
  ⟨.refl holds.disk holds.quiet, holds.item⟩

theorem ItemStep.trans (first : ItemStep s blocks middle state next changed)
    (second : ItemStep s middle later next after series) : ItemStep s blocks later state after series :=
  ⟨first.toItemChange.trans second.toItemChange, second.item⟩

/-- A size without a pool is refused before anything is written. -/
theorem reserveAndWrite_large {store : DiskStorage} (status : BlockStatus) (buf : List UInt8)
    (large : 2 ^ 26 < buf.length) (bounded : buf.length ≤ 2 ^ 62) :
    diskStorageReserveAndWriteBlock status buf store = .error (.code (.res 1)) store := by
  have sized := @getPoolId_run store buf.length (by omega) bounded
  have refused : diskStorageReserveBlock buf.length store = .error (.code (.res 1)) store := by
    unfold diskStorageReserveBlock
    rw [EStateM.bind_ok sized]
    dsimp only
    rw [if_pos (poolOf_ge _ large)]
    rfl
  exact EStateM.bind_error refused _

/-- How a write of the open block can fail. -/
def WriteDiskFails (s : Nat) (blocks : List Block) (state : ItemStore) (series : Series) (completeBlock : Bool)
    (failure : Failure) (after : ItemStore) : Prop :=
  match failure with
  | .code err => err = .res 1 ∧ 2 ^ 26 < (if completeBlock then s + 8 else s + 38) ∧
      ItemStep s blocks blocks state after series
  | .abort site => (site = .storageWriteDiskPoints ∧ series.stream = []) ∨ DiskFull (.abort site)

theorem getLastD_append_singleton {α : Type} (front : List α) (last default : α) :
    (front ++ [last]).getLastD default = last := by
  simp

/-- The entry of the open block, as `storage_write_disk` finds or makes it. -/
theorem ItemHolds.current {content : Nat → Option Block} {item : StorageItem}
    (holds : ItemHolds s content item series) :
    ∃ front current, (if item.dataOffsets = [] then [⟨0, 0#64⟩] else item.dataOffsets) = front ++ [current] ∧
      List.Forall₂ (EntryHolds s content item.internalId) front series.complete ∧
      LastHolds s content item.internalId series [current] ∧
      (item.dataOffsets = front ++ [current] ∨ item.dataOffsets = front ++ [] ∧ current.offset = 0) := by
  obtain ⟨front, last, split, entries, open_⟩ := holds.entries
  cases open_ with
  | unused first none =>
      rw [first] at entries
      cases entries
      refine ⟨[], ⟨0, 0#64⟩, by rw [split]; rfl, ?_, .unwritten _ none, Or.inr ⟨split, rfl⟩⟩
      rw [first]
      exact .nil
  | unwritten startTime none =>
      exact ⟨front, _, by rw [split, if_neg (by simp)], entries, .unwritten startTime none, Or.inl split⟩
  | written entry points block found data copy start part =>
      exact ⟨front, entry, by rw [split, if_neg (by simp)], entries,
        .written entry points block found data copy start part, Or.inl split⟩

/-- An entry for the open block does not change what the item keeps. -/
theorem ItemHolds.opened {content : Nat → Option Block} {item : StorageItem}
    (holds : ItemHolds s content item series) (zero : content 0 = none) {front : List OffsetAndTime}
    {current : OffsetAndTime} (entries : List.Forall₂ (EntryHolds s content item.internalId) front series.complete)
    (open_ : LastHolds s content item.internalId series [current])
    (which : item.dataOffsets = front ++ [current] ∨ item.dataOffsets = front ++ [] ∧ current.offset = 0) :
    ItemHolds s content { item with dataOffsets := front ++ [current] } series := by
  rcases which with same | ⟨same, unused⟩
  · rw [← same]
    exact holds
  · rw [List.append_nil] at same
    refine { holds with entries := ⟨front, [current], rfl, entries, open_⟩, distinct := ?_, owned := ?_ }
    · rw [List.map_append, List.nodup_append]
      refine ⟨by rw [← same]; exact holds.distinct, by simp, ?_⟩
      rintro first inFront second inLast rfl
      rw [List.map_singleton, List.mem_singleton, unused] at inLast
      rw [inLast] at inFront
      exact entries_offset_ne entries zero inFront
    · intro offset block found live carried
      have member := holds.owned offset block found live carried
      rw [same] at member
      rw [List.map_append, List.mem_append]
      exact Or.inl member

/-- The open block has been written at this offset. -/
structure BlockWrote (s : Nat) (blocks : List Block) (item : StorageItem) (front : List OffsetAndTime)
    (current : OffsetAndTime) (series : Series) (completeBlock : Bool) (offset : Nat) (disk : DiskStorage)
    (later : List Block) (new : Block) : Prop where
  holds : DiskHolds disk later
  quiet : disk.numBeforeCrash = none
  content : blockAt later = Function.update (blockAt blocks) offset (some new)
  data : DataBlock s item.internalId completeBlock series.stream new
  nonzero : offset ≠ 0
  fresh : offset ∉ front.map OffsetAndTime.offset
  lastOwn : current.offset = offset ∨ blockAt blocks current.offset = none
  before : ∀ old, blockAt blocks offset = some old → old.Live → carriedId old = item.internalId
  size : Bounded (blockBound s) (blockAt blocks) → getPoolSize new.pool ≤ blockBound s

section
variable {front : List OffsetAndTime} {current : OffsetAndTime} {completeBlock : Bool} {offset : Nat}

/-- The item has the entry of the block that was written. -/
theorem BlockWrote.step {disk : DiskStorage} {new : Block}
    (wrote : BlockWrote s blocks state.item front current series completeBlock offset disk later new)
    (holds : ItemAt s blocks state series) (some : series.stream ≠ [])
    (split : state.item.dataOffsets = front ++ [current])
    (entries : List.Forall₂ (EntryHolds s (blockAt blocks) state.item.internalId) front series.complete) :
    ItemStep s blocks later state ⟨state.item.wrote front offset completeBlock, disk⟩
      (series.wrote completeBlock) where
  disk := wrote.holds
  quiet := wrote.quiet
  item := by
    rw [wrote.content]
    refine holds.item.wrote split entries some (blockAt_zero _) wrote.nonzero wrote.data wrote.fresh ?_
    intro entry member
    rw [List.mem_singleton.mp member]
    exact wrote.lastOwn
  internalId := by cases completeBlock <;> rfl
  key := by cases completeBlock <;> rfl
  keyStorageOffset := by cases completeBlock <;> rfl
  frame := by
    rw [wrote.content]
    exact Frame.update wrote.before fun _ => wrote.data.carries (by have small := holds.item.small; omega)
  bounded := fun bounded => by
    rw [wrote.content]
    exact bounded.update (wrote.size bounded)

theorem statusOf_live (completeBlock : Bool) :
    (if completeBlock then BlockStatus.valid else BlockStatus.active) = .valid ∨
      (if completeBlock then BlockStatus.valid else BlockStatus.active) = .active := by
  cases completeBlock
  · exact Or.inr rfl
  · exact Or.inl rfl

/-- The open block gets a block of its own. -/
theorem reserveOpen_ends (holds : ItemAt s blocks state series)
    (entries : List.Forall₂ (EntryHolds s (blockAt blocks) state.item.internalId) front series.complete)
    (unwritten : current.offset = 0) :
    (onBlocks (diskStorageReserveAndWriteBlock (if completeBlock then .valid else .active)
        (storageBlock state.item completeBlock))).Ends state
      (fun offset after => ∃ disk later new, after = { state with dataDiskStore := disk } ∧
        BlockWrote s blocks state.item front current series completeBlock offset disk later new)
      (fun failure after =>
        match failure with
        | .code err => err = .res 1 ∧ 2 ^ 26 < (if completeBlock then s + 8 else s + 38) ∧ after = state
        | .abort site => DiskFull (.abort site)) := by
  have length := storageBlock_length holds.item.stream holds.item.dataLen completeBlock
  have bounded := holds.item.stream.bounded
  rw [holds.item.dataLen] at bounded
  unfold maxNumValidBits at bounded
  have short : (storageBlock state.item completeBlock).length ≤ s + 38 := by
    rw [length]
    split <;> omega
  have more : 1 < (storageBlock state.item completeBlock).length := by
    rw [length]
    split <;> omega
  by_cases large : 2 ^ 26 < (storageBlock state.item completeBlock).length
  · have refused := @reserveAndWrite_large state.dataDiskStore (if completeBlock then .valid else .active) _
      large (by omega)
    refine EStateM.ends_of_error (onBlocks_error refused) ?_
    rw [← length]
    exact ⟨rfl, large, rfl⟩
  · have ends := holds.disk.reserveAndWrite holds.quiet _ (statusOf_live completeBlock)
      (storageBlock state.item completeBlock) more (Nat.le_of_not_lt large)
    apply (onBlocks_ends ends).mono
    · rintro offset after ⟨disk, ⟨later, new, held, calm, added, _⟩, rfl⟩
      obtain ⟨padding, payload⟩ := added.payload
      have reserved := added.reserved
      unfold storageInitialReserved at reserved
      have dead : ∀ old, blockAt blocks offset = some old → ¬ old.Live := by
        intro old found live
        rcases live with status | status <;> rw [added.unused old found] at status <;> cases status
      refine ⟨disk, later, new, rfl, ⟨held, calm, added.added,
        .of_payload holds.item.stream holds.item.dataLen added.status payload, by omega, ?_, ?_, ?_, ?_⟩⟩
      · intro member
        obtain ⟨entry, present, rfl⟩ := List.mem_map.mp member
        obtain ⟨_, _, entry_holds⟩ := entry_of_mem entries present
        obtain ⟨block, found, data⟩ := entry_holds.block
        exact dead block found data.live
      · rw [unwritten]
        exact Or.inr (blockAt_zero _)
      · intro old found live
        exact absurd live (dead old found)
      · intro _
        rw [added.pool]
        exact poolSize_le_blockBound short
    · rintro failure after ⟨disk, full, rfl⟩
      cases failure with
      | code err => rcases full with same | same <;> cases same
      | abort site => exact full

/-- The copy of the open block is written over. -/
theorem rewriteOpen_ends (holds : ItemAt s blocks state series) (some : series.stream ≠ [])
    (split : state.item.dataOffsets = front ++ [current])
    (open_ : LastHolds s (blockAt blocks) state.item.internalId series [current]) (written : current.offset ≠ 0) :
    current.startTime = tscStartTime state.item.data.data ∧
      ∃ disk later new, onBlocks (diskStorageWriteBlock current.offset (if completeBlock then .valid else .active)
          (storageBlock state.item completeBlock)) state = .ok () { state with dataDiskStore := disk } ∧
        BlockWrote s blocks state.item front current series completeBlock current.offset disk later new := by
  have length := storageBlock_length holds.item.stream holds.item.dataLen completeBlock
  have small := holds.item.small
  cases open_ with
  | unwritten startTime none => exact absurd rfl written
  | written _ points block found data copy start part =>
      obtain ⟨p, rest, image, size, payload⟩ := data.image
      have fits : (storageBlock state.item completeBlock).length ≤ getPoolSize block.pool := by
        rw [← block.whole, payload, length]
        simp only [Bool.false_eq_true, if_false, List.length_append, bytesOf_length, tscSerializeHeader_length,
          image.toBytes_length, size, tscHeaderSerializationSize]
        split <;> omega
      have used : block.status ≠ .empty := by
        rw [data.status]
        simp
      have same : current.startTime = tscStartTime state.item.data.data := by
        have whole := holds.item.startTime some
        obtain ⟨behind, rest⟩ := part
        rw [← rest] at whole
        cases points with
        | nil => cases start
        | cons point points => exact (Option.some.inj start).symm.trans (Option.some.inj whole)
      obtain ⟨disk, later, run, held, calm, content, _⟩ := holds.disk.writeBlock holds.quiet found used _
        (statusOf_live completeBlock) (storageBlock state.item completeBlock) fits
      refine ⟨same, disk, later, _, onBlocks_ok run, held, calm, content,
        .of_payload holds.item.stream holds.item.dataLen rfl rfl, written, ?_, Or.inl rfl, ?_, ?_⟩
      · have distinct := holds.item.distinct
        rw [split, List.map_append, List.nodup_append] at distinct
        intro member
        exact distinct.2.2 _ member _ (by simp) rfl
      · intro old again live
        rw [found] at again
        rw [← Option.some.inj again]
        exact data.carries (by omega)
      · intro bounded
        exact bounded current.offset block found

end

/-- Writing the open block to disk, as a copy or as a complete block. -/
theorem storageWriteDisk_ends (holds : ItemAt s blocks state series) (completeBlock : Bool) :
    (storageWriteDisk completeBlock).Ends state
      (fun _ after => series.stream ≠ [] ∧
        ∃ later, ItemStep s blocks later state after (series.wrote completeBlock))
      (WriteDiskFails s blocks state series completeBlock) := by
  obtain ⟨front, current, offsets, entries, open_, which⟩ := holds.item.current
  have stream := holds.item.stream
  unfold storageWriteDisk
  apply EStateM.ends_bind_ok (EStateM.get_apply state)
  by_cases some : series.stream = []
  · have none : ¬ 0 < state.item.data.data.numPts := by
      rw [stream.numPts, some]
      simp
    refine EStateM.ends_of_error (EStateM.bind_error (by rw [require_apply, if_neg none]) _) ?_
    exact Or.inl ⟨rfl, some⟩
  have points : 0 < state.item.data.data.numPts := by
    rw [stream.numPts]
    exact List.length_pos_iff.mpr some
  have time : 0 < (tscStartTime state.item.data.data).toInt := by
    have start := holds.item.startTime some
    obtain ⟨point, head, same⟩ := Option.map_eq_some_iff.mp start
    rw [← same]
    apply holds.item.positive
    rw [Series.points, List.mem_append]
    exact Or.inr (List.mem_of_mem_head? head)
  rw [require_bind points, require_bind time]
  dsimp only
  rw [offsets, getLastD_append_singleton, List.dropLast_concat]
  apply EStateM.ends_bind_ok (EStateM.modify_apply _ _)
  -- the item has an entry for its open block from here on
  generalize opened : ({ state with item := { state.item with dataOffsets := front ++ [current] } } : ItemStore) =
    begun
  have entry : ItemStep s blocks blocks state begun series := by
    rw [← opened]
    exact ⟨⟨holds.disk, holds.quiet, rfl, rfl, rfl, Frame.refl _ _, id⟩,
      holds.item.opened (blockAt_zero _) entries open_ which⟩
  have split : begun.item.dataOffsets = front ++ [current] := by rw [← opened]
  have same : storageBlock state.item completeBlock = storageBlock begun.item completeBlock := by
    rw [← opened]
    rfl
  have start : tscStartTime state.item.data.data = tscStartTime begun.item.data.data := by rw [← opened]
  rw [← entry.internalId] at entries open_
  rw [same, start]
  clear offsets which stream points time opened same start
  by_cases unwritten : current.offset = 0
  · rw [if_pos unwritten]
    apply EStateM.Ends.bind ((reserveOpen_ends entry.toItemAt entries unwritten).mono (fun _ _ done => done) ?_)
    · rintro offset after ⟨disk, later, new, rfl, wrote⟩
      rw [require_bind (Nat.pos_of_ne_zero wrote.nonzero)]
      have done := wrote.step entry.toItemAt some split entries
      refine EStateM.ends_of_ok (?_ : _ = EStateM.Result.ok () _) ⟨some, later, entry.trans done⟩
      cases completeBlock <;> rfl
    · rintro failure after stopped
      cases failure with
      | code err =>
          obtain ⟨code, large, rfl⟩ := stopped
          exact ⟨code, large, entry⟩
      | abort site => exact Or.inr stopped
  · rw [if_neg unwritten]
    obtain ⟨time, disk, later, new, run, wrote⟩ :=
      @rewriteOpen_ends s blocks begun series front current completeBlock entry.toItemAt some split open_ unwritten
    rw [require_bind time]
    apply EStateM.ends_bind_ok run
    have done := wrote.step entry.toItemAt some split entries
    refine EStateM.ends_of_ok (?_ : _ = EStateM.Result.ok () _) ⟨some, later, entry.trans done⟩
    have kept : front ++ [begun.item.entry current.offset] = begun.item.dataOffsets := by
      rw [StorageItem.entry, ← time, split]
    unfold StorageItem.wrote
    rw [kept]
    cases completeBlock <;> rfl

end

end Menoetius
