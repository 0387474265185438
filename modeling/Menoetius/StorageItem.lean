import Menoetius.DiskScan
import Menoetius.Series
import Menoetius.Storage

/-
This file relates an item and its blocks on disk to the timeseries that they keep.
-/

namespace Menoetius
open LittleEndian

section
variable {α : Type} {state : ItemStore}

theorem onBlocks_ends {action : DiskM α} {post : α → DiskStorage → Prop} {stop : Failure → DiskStorage → Prop}
    (ends : action.Ends state.dataDiskStore post stop) :
    (onBlocks action).Ends state
      (fun value after => ∃ disk, post value disk ∧ after = { state with dataDiskStore := disk })
      fun failure after => ∃ disk, stop failure disk ∧ after = { state with dataDiskStore := disk } := by
  cases run : action state.dataDiskStore with
  | ok value after => exact EStateM.ends_of_ok (by simp only [onBlocks, run]) ⟨after, ends.of_ok run, rfl⟩
  | error failure after =>
      exact EStateM.ends_of_error (by simp only [onBlocks, run]) ⟨after, ends.of_error run, rfl⟩

theorem onBlocks_ok {action : DiskM α} {value : α} {after : DiskStorage}
    (run : action state.dataDiskStore = .ok value after) :
    onBlocks action state = .ok value { state with dataDiskStore := after } := by
  simp only [onBlocks, run]

theorem onBlocks_error {action : DiskM α} {failure : Failure} {after : DiskStorage}
    (run : action state.dataDiskStore = .error failure after) :
    onBlocks action state = .error failure { state with dataDiskStore := after } := by
  simp only [onBlocks, run]

theorem onData_ok {action : EStateM Failure TscHeader α} {value : α} {after : TscHeader}
    (run : action state.item.data = .ok value after) :
    onData action state = .ok value { state with item := { state.item with data := after } } := by
  simp only [onData, run]

theorem onData_error {action : EStateM Failure TscHeader α} {failure : Failure} {after : TscHeader}
    (run : action state.item.data = .error failure after) :
    onData action state = .error failure { state with item := { state.item with data := after } } := by
  simp only [onData, run]

end

/-- The internal id at the start of a data block. -/
def carriedId (block : Block) : Nat := valueOf (block.payload.take 8)

/-- A block with these points, complete or active. -/
structure DataBlock (s internalId : Nat) (completeBlock : Bool) (points : List Point) (block : Block) : Prop where
  status : block.status = if completeBlock then .valid else .active
  image : ∃ p rest, BlockHolds p points ∧ p.dataLen = s ∧ block.payload =
    bytesOf 8 internalId ++ ((if completeBlock then [] else tscSerializeHeader p) ++ (p.data.toBytes ++ rest))

section
variable {s internalId : Nat} {completeBlock : Bool} {points : List Point} {block : Block}

theorem DataBlock.live (data : DataBlock s internalId completeBlock points block) : block.Live := by
  unfold Block.Live
  rw [data.status]
  cases completeBlock
  · exact Or.inr rfl
  · exact Or.inl rfl

theorem DataBlock.carries (data : DataBlock s internalId completeBlock points block)
    (small : internalId < 2 ^ 64) : carriedId block = internalId := by
  obtain ⟨p, rest, _, _, payload⟩ := data.image
  rw [carriedId, payload, List.take_left' (bytesOf_length _ _), valueOf_bytesOf_of_lt 8 _ small]

theorem storageBlock_length {item : StorageItem} (stream : BlockHolds item.data points)
    (size : item.data.dataLen = s) (completeBlock : Bool) :
    (storageBlock item completeBlock).length = if completeBlock then s + 8 else s + 38 := by
  have length := stream.toBytes_length
  cases completeBlock <;> simp [storageBlock, length, size, tscHeaderSerializationSize] <;> omega

/-- What a block holds after `storage_write_disk` has written it. -/
theorem DataBlock.of_payload {item : StorageItem} (stream : BlockHolds item.data points)
    (size : item.data.dataLen = s) (status : block.status = if completeBlock then .valid else .active)
    {rest : List UInt8} (payload : block.payload = storageBlock item completeBlock ++ rest) :
    DataBlock s item.internalId completeBlock points block :=
  ⟨status, item.data, rest, stream, size, by
    rw [payload, storageBlock, List.append_assoc, List.append_assoc]⟩

end

/-- A data offset of a complete block. -/
structure EntryHolds (s : Nat) (content : Nat → Option Block) (internalId : Nat) (entry : OffsetAndTime)
    (points : List Point) : Prop where
  block : ∃ block, content entry.offset = some block ∧ DataBlock s internalId true points block
  start : points.head?.map Prod.fst = some entry.startTime

/-- The data offset of the open block. It is zero when the open block has no copy on disk. -/
inductive LastHolds (s : Nat) (content : Nat → Option Block) (internalId : Nat) (series : Series) :
    List OffsetAndTime → Prop
  | unused (first : series.complete = []) (none : series.active = none) :
      LastHolds s content internalId series []
  | unwritten (startTime : Word) (none : series.active = none) :
      LastHolds s content internalId series [⟨0, startTime⟩]
  | written (entry : OffsetAndTime) (points : List Point) (block : Block)
      (found : content entry.offset = some block) (data : DataBlock s internalId false points block)
      (copy : series.active = some points) (start : points.head?.map Prod.fst = some entry.startTime)
      (part : points <+: series.stream) : LastHolds s content internalId series [entry]

/-- The item and the blocks with its internal id keep this timeseries. -/
structure ItemHolds (s : Nat) (content : Nat → Option Block) (item : StorageItem) (series : Series) : Prop where
  small : item.internalId < 2 ^ 63
  stream : BlockHolds item.data series.stream
  dataLen : item.data.dataLen = s
  entries : ∃ front last, item.dataOffsets = front ++ last ∧
    List.Forall₂ (EntryHolds s content item.internalId) front series.complete ∧
    LastHolds s content item.internalId series last
  distinct : (item.dataOffsets.map OffsetAndTime.offset).Nodup
  owned : ∀ offset block, content offset = some block → block.Live → carriedId block = item.internalId →
    offset ∈ item.dataOffsets.map OffsetAndTime.offset
  positive : ∀ point ∈ series.points, 0 < point.1.toInt

/-- Only blocks of one item have changed. -/
structure Frame (internalId : Nat) (content later : Nat → Option Block) : Prop where
  kept : ∀ offset block, content offset = some block → block.Live → carriedId block ≠ internalId →
    later offset = some block
  old : ∀ offset block, later offset = some block → block.Live → carriedId block ≠ internalId →
    content offset = some block

theorem Frame.refl (internalId : Nat) (content : Nat → Option Block) : Frame internalId content content :=
  ⟨fun _ _ found _ _ => found, fun _ _ found _ _ => found⟩

theorem Frame.trans {internalId : Nat} {first second third : Nat → Option Block}
    (start : Frame internalId first second) (rest : Frame internalId second third) :
    Frame internalId first third :=
  ⟨fun offset block found live other => rest.kept offset block (start.kept offset block found live other) live other,
    fun offset block found live other => start.old offset block (rest.old offset block found live other) live other⟩

/-- A changed block belonged to the item or to nobody, and belongs to the item or to nobody now. -/
theorem Frame.update {internalId : Nat} {content : Nat → Option Block} {offset : Nat} {new : Block}
    (before : ∀ old, content offset = some old → old.Live → carriedId old = internalId)
    (after : new.Live → carriedId new = internalId) :
    Frame internalId content (Function.update content offset (some new)) := by
  constructor
  · intro place block found live other
    rw [Function.update_apply, if_neg, found]
    rintro rfl
    exact other (before block found live)
  · intro place block found live other
    by_cases here : place = offset
    · subst here
      rw [Function.update_self] at found
      rw [← Option.some.inj found] at live other
      exact absurd (after live) other
    · rwa [Function.update_of_ne here] at found

/-- All blocks of a store are at most this large. -/
def Bounded (bound : Nat) (content : Nat → Option Block) : Prop :=
  ∀ offset block, content offset = some block → getPoolSize block.pool ≤ bound

theorem Bounded.update {bound offset : Nat} {content : Nat → Option Block} {new : Block}
    (bounded : Bounded bound content) (fits : getPoolSize new.pool ≤ bound) :
    Bounded bound (Function.update content offset (some new)) := by
  intro place block found
  by_cases here : place = offset
  · subst here
    rw [Function.update_self] at found
    rw [← Option.some.inj found]
    exact fits
  · rw [Function.update_of_ne here] at found
    exact bounded place block found

/-- The largest block that items with this block size are given. -/
def blockBound (s : Nat) : Nat := getPoolSize (poolOf (s + 38))

theorem poolSize_le_blockBound {s n : Nat} (small : n ≤ s + 38) : getPoolSize (poolOf n) ≤ blockBound s := by
  have fits := le_getPoolSize_poolOf (s + 38)
  unfold blockBound
  rw [getPoolSize_poolOf (s + 38)] at fits ⊢
  exact getPoolSize_poolOf_le n _ (by omega) (Nat.le_max_right _ _)

theorem blockBound_le {s : Nat} (small : s + 38 ≤ 2 ^ 20) : blockBound s ≤ 2 ^ 20 :=
  getPoolSize_poolOf_le _ 20 small (by decide)

section
variable {s : Nat} {content later : Nat → Option Block} {item : StorageItem} {series : Series}

theorem EntryHolds.frame {internalId other : Nat} {entry : OffsetAndTime} {points : List Point}
    (holds : EntryHolds s content internalId entry points) (small : internalId < 2 ^ 63)
    (different : internalId ≠ other) (frame : Frame other content later) :
    EntryHolds s later internalId entry points := by
  obtain ⟨block, found, data⟩ := holds.block
  exact ⟨⟨block, frame.kept _ _ found data.live (by rw [data.carries (by omega)]; exact different), data⟩,
    holds.start⟩

theorem LastHolds.frame {internalId other : Nat} {last : List OffsetAndTime}
    (holds : LastHolds s content internalId series last) (small : internalId < 2 ^ 63)
    (different : internalId ≠ other) (frame : Frame other content later) :
    LastHolds s later internalId series last := by
  cases holds with
  | unused first none => exact .unused first none
  | unwritten startTime none => exact .unwritten startTime none
  | written entry points block found data copy start part =>
      exact .written entry points block
        (frame.kept _ _ found data.live (by rw [data.carries (by omega)]; exact different)) data copy start part

/-- The blocks of another item may change. -/
theorem ItemHolds.frame {other : Nat} (holds : ItemHolds s content item series)
    (different : item.internalId ≠ other) (frame : Frame other content later) :
    ItemHolds s later item series := by
  obtain ⟨front, last, split, complete, open_⟩ := holds.entries
  refine { holds with
    entries := ⟨front, last, split, complete.imp fun _ _ entry => entry.frame holds.small different frame,
      open_.frame holds.small different frame⟩
    owned := ?_ }
  intro offset block found live carried
  exact holds.owned offset block (frame.old offset block found live (by rw [carried]; exact different)) live carried

/-- An entry of a complete block is not changed by a write elsewhere. -/
theorem EntryHolds.update {internalId offset : Nat} {entry : OffsetAndTime} {points : List Point} {new : Block}
    (holds : EntryHolds s content internalId entry points) (elsewhere : entry.offset ≠ offset) :
    EntryHolds s (Function.update content offset (some new)) internalId entry points := by
  obtain ⟨block, found, data⟩ := holds.block
  exact ⟨⟨block, by rw [Function.update_of_ne elsewhere, found], data⟩, holds.start⟩

theorem Forall₂.entries_update {internalId offset : Nat} {front : List OffsetAndTime}
    {complete : List (List Point)} {new : Block}
    (entries : List.Forall₂ (EntryHolds s content internalId) front complete)
    (elsewhere : offset ∉ front.map OffsetAndTime.offset) :
    List.Forall₂ (EntryHolds s (Function.update content offset (some new)) internalId) front complete := by
  induction entries with
  | nil => exact .nil
  | cons first rest ih =>
      rw [List.map_cons, List.mem_cons, not_or] at elsewhere
      exact .cons (first.update fun same => elsewhere.1 same.symm) (ih elsewhere.2)

/-- The data offset that the open block of an item is given. -/
def StorageItem.entry (item : StorageItem) (offset : Nat) : OffsetAndTime := ⟨offset, tscStartTime item.data.data⟩

/-- The data offset of an open block without a copy on disk. -/
def unwritten : OffsetAndTime := ⟨0, 0#64⟩

/-- The item after its open block has been written to disk. -/
def StorageItem.wrote (item : StorageItem) (front : List OffsetAndTime) (offset : Nat) (completeBlock : Bool) :
    StorageItem :=
  if completeBlock then
    { item with
      data := tscClear item.data
      dataOffsets := front ++ [item.entry offset] ++ [unwritten] }
  else { item with dataOffsets := front ++ [item.entry offset] }

/-- The timeseries after its open block has been written to disk. -/
def Series.wrote (series : Series) (completeBlock : Bool) : Series :=
  if completeBlock then series.flush else series.sync

@[simp] theorem Series.points_wrote (series : Series) (completeBlock : Bool) :
    (series.wrote completeBlock).points = series.points := by
  cases completeBlock <;> simp [wrote]

theorem EntryHolds.offset_ne {internalId offset : Nat} {entry : OffsetAndTime} {points : List Point}
    (holds : EntryHolds s content internalId entry points) (none : content offset = none) :
    entry.offset ≠ offset := by
  rintro rfl
  obtain ⟨block, found, _⟩ := holds.block
  rw [none] at found
  cases found

theorem entry_of_mem {internalId : Nat} {front : List OffsetAndTime} {complete : List (List Point)}
    (entries : List.Forall₂ (EntryHolds s content internalId) front complete) {entry : OffsetAndTime}
    (member : entry ∈ front) : ∃ points ∈ complete, EntryHolds s content internalId entry points := by
  induction entries with
  | nil => cases member
  | cons first rest ih =>
      rcases List.mem_cons.mp member with rfl | later
      · exact ⟨_, List.mem_cons_self, first⟩
      · obtain ⟨points, present, holds⟩ := ih later
        exact ⟨points, List.mem_cons_of_mem _ present, holds⟩

theorem entries_offset_ne {internalId offset : Nat} {front : List OffsetAndTime} {complete : List (List Point)}
    (entries : List.Forall₂ (EntryHolds s content internalId) front complete) (none : content offset = none) :
    offset ∉ front.map OffsetAndTime.offset := by
  intro member
  obtain ⟨entry, present, same⟩ := List.mem_map.mp member
  obtain ⟨_, _, holds⟩ := entry_of_mem entries present
  exact holds.offset_ne none same

theorem ItemHolds.startTime (holds : ItemHolds s content item series) (some : series.stream ≠ []) :
    series.stream.head?.map Prod.fst = Option.some (tscStartTime item.data.data) := by
  obtain ⟨point, rest, split⟩ := List.exists_cons_of_ne_nil some
  have stream := holds.stream
  rw [split] at stream ⊢
  rw [tscStartTime_points _ _ _ stream]
  rfl

/-- The open block was written over its own copy or over a block that nobody used. -/
theorem ItemHolds.wrote (holds : ItemHolds s content item series) {front last : List OffsetAndTime}
    (split : item.dataOffsets = front ++ last)
    (entries : List.Forall₂ (EntryHolds s content item.internalId) front series.complete)
    {offset : Nat} {new : Block} {completeBlock : Bool} (some : series.stream ≠ []) (zero : content 0 = none)
    (nonzero : offset ≠ 0) (data : DataBlock s item.internalId completeBlock series.stream new)
    (fresh : offset ∉ front.map OffsetAndTime.offset)
    (lastOwn : ∀ entry ∈ last, entry.offset = offset ∨ content entry.offset = none) :
    ItemHolds s (Function.update content offset (Option.some new)) (item.wrote front offset completeBlock)
      (series.wrote completeBlock) := by
  have start := holds.startTime some
  have kept := @Forall₂.entries_update s content _ offset front _ new entries fresh
  have place : Function.update content offset (Option.some new) offset = Option.some new :=
    Function.update_self _ _ _
  have distinct : (front.map OffsetAndTime.offset).Nodup := by
    have all := holds.distinct
    rw [split, List.map_append] at all
    exact all.of_append_left
  have owned : ∀ other block, Function.update content offset (Option.some new) other = Option.some block →
      block.Live → carriedId block = item.internalId →
      other ∈ (front ++ [item.entry offset]).map OffsetAndTime.offset := by
    intro other block found live carried
    rw [List.map_append, List.mem_append]
    by_cases here : other = offset
    · exact Or.inr (by simp [here, StorageItem.entry])
    · rw [Function.update_of_ne here] at found
      have member := holds.owned other block found live carried
      rw [split, List.map_append, List.mem_append] at member
      rcases member with inFront | inLast
      · exact Or.inl inFront
      · obtain ⟨entry, present, rfl⟩ := List.mem_map.mp inLast
        rcases lastOwn entry present with same | none
        · exact absurd same here
        · rw [none] at found
          cases found
  have together : ((front ++ [item.entry offset]).map OffsetAndTime.offset).Nodup := by
    rw [List.map_append, List.nodup_append]
    refine ⟨distinct, by simp, ?_⟩
    rintro first inFront second inLast rfl
    rw [List.map_singleton, List.mem_singleton] at inLast
    rw [inLast] at inFront
    exact fresh inFront
  cases completeBlock with
  | false =>
      exact
        { small := holds.small
          stream := holds.stream
          dataLen := holds.dataLen
          entries := ⟨front, _, rfl, kept, .written _ series.stream new place data rfl start List.prefix_rfl⟩
          distinct := together
          owned := owned
          positive := holds.positive }
  | true =>
      refine
        { small := holds.small
          stream := tscClear_holds _ _ holds.stream
          dataLen := holds.dataLen
          entries := ⟨front ++ [item.entry offset], _, rfl,
            List.rel_append kept (.cons ⟨⟨new, place, data⟩, start⟩ .nil), .unwritten 0#64 rfl⟩
          distinct := ?_
          owned := ?_
          positive := ?_ }
      · change ((front ++ [item.entry offset] ++ [unwritten]).map
          OffsetAndTime.offset).Nodup
        rw [List.map_append, List.nodup_append]
        refine ⟨together, by simp, ?_⟩
        rintro first inFront second inLast rfl
        rw [List.map_singleton, List.mem_singleton] at inLast
        subst inLast
        rw [List.map_append, List.mem_append] at inFront
        rcases inFront with member | member
        · exact entries_offset_ne entries zero member
        · rw [List.map_singleton, List.mem_singleton] at member
          exact nonzero member.symm
      · intro other block found live carried
        change other ∈ (front ++ [item.entry offset] ++ [unwritten]).map
          OffsetAndTime.offset
        rw [List.map_append, List.mem_append]
        exact Or.inl (owned other block found live carried)
      · rw [Series.points_wrote]
        exact holds.positive

end

end Menoetius
