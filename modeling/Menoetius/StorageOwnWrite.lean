import Menoetius.StorageLaw

/-
This file follows `storage_write_disk` and the loop of `storage_write` for points in any order.
-/

namespace Menoetius
open LittleEndian

/-- A write of more bytes than the block has stops the process. -/
theorem writeBlock_large {store : DiskStorage} {blocks : List Block} {block : Block} {offset : Nat}
    (files : DiskFiles store blocks) (found : blockAt blocks offset = some block) (status : BlockStatus)
    (live : status = .valid ∨ status = .active) (buf : List UInt8) (large : ¬ buf.length ≤ getPoolSize block.pool) :
    ∃ after, diskStorageWriteBlock offset status buf store = .error (.abort .writeBlockSize) after := by
  have positive : 0 < offset := by
    have reserved := blockAt_ge found
    unfold storageInitialReserved at reserved
    omega
  obtain ⟨front, back, split, rfl⟩ := (blockAt_eq_some _ _ _).mp found
  obtain ⟨seek, reads⟩ := files.seek_read split
  unfold diskStorageWriteBlock
  rw [require_bind positive, require_bind live, EStateM.bind_ok seek, EStateM.bind_ok reads,
    require_bind (header_length block), header_pool, ofNat_pool]
  exact ⟨_, EStateM.bind_error (by rw [require_apply, if_neg large]) _⟩

section
variable {s : Nat} {content : Nat → Option Block} {item : StorageItem} {front : List OffsetAndTime}
  {current : OffsetAndTime} {points : List Point} {completeBlock : Bool} {new : Block} {offset : Nat}

/-- The entry of the open block, as `storage_write_disk` finds or makes it. -/
theorem ItemOwns.opened (owns : ItemOwns s content item) :
    ∃ front current, (if item.dataOffsets = [] then [⟨0, 0#64⟩] else item.dataOffsets) = front ++ [current] ∧
      ItemOwns s content { item with dataOffsets := front ++ [current] } := by
  by_cases none : item.dataOffsets = []
  · refine ⟨[], ⟨0, 0#64⟩, by rw [if_pos none]; rfl, ?_⟩
    refine { owns with entries := ?_, zeroLast := by simp, distinct := by simp, owned := ?_ }
    · intro entry member nonzero
      rw [List.nil_append, List.mem_singleton] at member
      rw [member] at nonzero
      exact absurd rfl nonzero
    · intro offset block found live carried
      have member := owns.owned offset block found live carried
      rw [none] at member
      cases member
  · obtain ⟨front, current, split⟩ := List.eq_nil_or_concat item.dataOffsets |>.resolve_left none
    rw [List.concat_eq_append] at split
    refine ⟨front, current, by rw [if_neg none, split], ?_⟩
    rw [← split]
    exact owns

/-- The open block was written over the block of its entry or over a block that nobody used. -/
theorem ItemOwns.wrote (owns : ItemOwns s content item) (split : item.dataOffsets = front ++ [current])
    (data : PointBlock s item.internalId completeBlock points new) (nonzero : offset ≠ 0)
    (fresh : offset ∉ front.map OffsetAndTime.offset) (place : current.offset = offset ∨ current.offset = 0)
    (zero : content 0 = none) :
    ItemOwns s (Function.update content offset (some new)) (item.wrote front offset completeBlock) := by
  obtain ⟨stream, holds, positive⟩ := owns.stream
  have written : ∀ entry ∈ front ++ [item.entry offset], entry.offset ≠ 0 → ∃ block complete points,
      Function.update content offset (some new) entry.offset = some block ∧
        PointBlock s item.internalId complete points block := by
    intro entry member present
    by_cases here : entry.offset = offset
    · exact ⟨new, completeBlock, points, by rw [here, Function.update_self], data⟩
    · rcases List.mem_append.mp member with old | last
      · rw [Function.update_of_ne here]
        exact owns.entries entry (by rw [split]; exact List.mem_append_left _ old) present
      · rw [List.mem_singleton.mp last] at here
        exact absurd rfl here
  have nonzeros : ∀ entry ∈ front ++ [item.entry offset], entry.offset ≠ 0 := by
    intro entry member
    rcases List.mem_append.mp member with old | last
    · exact owns.zeroLast entry (by rw [split, List.dropLast_concat]; exact old)
    · rw [List.mem_singleton.mp last]
      exact nonzero
  have distinct : ((front ++ [item.entry offset]).map OffsetAndTime.offset).Nodup := by
    have before := owns.distinct
    rw [split, List.map_append] at before
    rw [List.map_append, List.nodup_append]
    refine ⟨before.of_append_left, by simp, ?_⟩
    rintro first inFront second inLast rfl
    rw [List.map_singleton, List.mem_singleton] at inLast
    rw [inLast] at inFront
    exact fresh inFront
  have owned : ∀ other block, Function.update content offset (some new) other = some block → block.Live →
      carriedId block = item.internalId → other ∈ (front ++ [item.entry offset]).map OffsetAndTime.offset := by
    intro other block found live carried
    rw [List.map_append, List.mem_append]
    by_cases here : other = offset
    · exact Or.inr (by simp [here, StorageItem.entry])
    · rw [Function.update_of_ne here] at found
      have member := owns.owned other block found live carried
      rw [split, List.map_append, List.mem_append] at member
      rcases member with inFront | inLast
      · exact Or.inl inFront
      · rw [List.map_singleton, List.mem_singleton] at inLast
        rcases place with same | none
        · exact absurd (inLast.trans same) here
        · rw [inLast, none, zero] at found
          cases found
  cases completeBlock with
  | false =>
      exact
        { small := owns.small
          stream := owns.stream
          dataLen := owns.dataLen
          entries := written
          zeroLast := fun entry member => nonzeros entry (List.mem_of_mem_dropLast member)
          distinct := distinct
          owned := owned }
  | true =>
      refine
        { small := owns.small
          stream := ⟨[], tscClear_holds _ _ holds, by simp⟩
          dataLen := owns.dataLen
          entries := ?_
          zeroLast := ?_
          distinct := ?_
          owned := ?_ }
      · intro entry member present
        rcases List.mem_append.mp member with old | last
        · exact written entry old present
        · rw [List.mem_singleton.mp last] at present
          exact absurd rfl present
      · intro entry member
        change entry ∈ (front ++ [item.entry offset] ++ [unwritten]).dropLast at member
        rw [List.dropLast_concat] at member
        exact nonzeros entry member
      · change ((front ++ [item.entry offset] ++ [unwritten]).map OffsetAndTime.offset).Nodup
        rw [List.map_append, List.nodup_append]
        refine ⟨distinct, by simp, ?_⟩
        rintro first inside second last rfl
        rw [List.map_singleton, List.mem_singleton] at last
        obtain ⟨entry, member, same⟩ := List.mem_map.mp inside
        exact nonzeros entry member (same.trans last)
      · intro other block found live carried
        change other ∈ (front ++ [item.entry offset] ++ [unwritten]).map OffsetAndTime.offset
        rw [List.map_append]
        exact List.mem_append_left _ (owned other block found live carried)

variable {blocks later : List Block} {state : ItemStore}

abbrev OwnAt (s : Nat) : List Block → ItemStore → Prop := KeptAt (ItemOwns s)

abbrev OwnStep (s : Nat) : List Block → List Block → ItemStore → ItemStore → Prop := KeptStep (ItemOwns s) s

theorem KeptAt.refl {keeps : (Nat → Option Block) → StorageItem → Prop} (holds : KeptAt keeps blocks state) :
    KeptStep keeps s blocks blocks state state := ⟨.refl holds.disk holds.quiet, holds.item⟩

theorem KeptStep.at {keeps : (Nat → Option Block) → StorageItem → Prop} {after : ItemStore}
    (step : KeptStep keeps s blocks later state after) : KeptAt keeps later after :=
  ⟨step.disk, step.quiet, step.item⟩

theorem KeptStep.trans {keeps : (Nat → Option Block) → StorageItem → Prop} {middle : List Block}
    {next after : ItemStore} (first : KeptStep keeps s blocks middle state next)
    (second : KeptStep keeps s middle later next after) : KeptStep keeps s blocks later state after :=
  ⟨first.toItemChange.trans second.toItemChange, second.item⟩

/-- The item after its open block was written. -/
theorem OwnAt.wrote (holds : OwnAt s blocks state) (split : state.item.dataOffsets = front ++ [current])
    {disk : DiskStorage} (held : DiskHolds disk later) (quiet : disk.numBeforeCrash = none)
    (changed : blockAt later = Function.update (blockAt blocks) offset (some new))
    (data : PointBlock s state.item.internalId completeBlock points new) (nonzero : offset ≠ 0)
    (fresh : offset ∉ front.map OffsetAndTime.offset) (place : current.offset = offset ∨ current.offset = 0)
    (before : ∀ old, blockAt blocks offset = some old → old.Live → carriedId old = state.item.internalId)
    (size : Bounded (blockBound s) (blockAt blocks) → getPoolSize new.pool ≤ blockBound s) :
    OwnStep s blocks later state ⟨state.item.wrote front offset completeBlock, disk⟩ where
  disk := held
  quiet := quiet
  internalId := by cases completeBlock <;> rfl
  key := by cases completeBlock <;> rfl
  keyStorageOffset := by cases completeBlock <;> rfl
  frame := by
    rw [changed]
    exact Frame.update before fun _ => data.carries (by have small := holds.item.small; omega)
  bounded := fun bounded => by
    rw [changed]
    exact bounded.update (size bounded)
  item := by
    rw [changed]
    exact holds.item.wrote split data nonzero fresh place (blockAt_zero blocks)

/-- The open block gets a block of its own. -/
theorem OwnAt.reserve (holds : OwnAt s blocks state) (split : state.item.dataOffsets = front ++ [current])
    (unwritten : current.offset = 0) (stream : BlockHolds state.item.data points) (some : points ≠ [])
    (positive : ∀ point ∈ points, 0 < point.1.toInt) :
    (onBlocks (diskStorageReserveAndWriteBlock (if completeBlock then .valid else .active)
        (storageBlock state.item completeBlock))).Ends state
      (fun offset after => 0 < offset ∧ ∃ disk later, after = { state with dataDiskStore := disk } ∧
        OwnStep s blocks later state ⟨state.item.wrote front offset completeBlock, disk⟩)
      (fun failure after =>
        match failure with
        | .code _ => after = state
        | .abort _ => True) := by
  have length := storageBlock_length stream holds.item.dataLen completeBlock
  have bounded := stream.bounded
  rw [holds.item.dataLen] at bounded
  unfold maxNumValidBits at bounded
  have short : (storageBlock state.item completeBlock).length ≤ s + 38 := by
    rw [length]
    split <;> omega
  have more : 1 < (storageBlock state.item completeBlock).length := by
    rw [length]
    split <;> omega
  by_cases large : 2 ^ 26 < (storageBlock state.item completeBlock).length
  · have refused := @reserveAndWrite_large state.dataDiskStore (if completeBlock then .valid else .active) _
      large (by omega)
    exact EStateM.ends_of_error (onBlocks_error refused) rfl
  · have ends := holds.disk.reserveAndWrite holds.quiet _ (statusOf_live completeBlock)
      (storageBlock state.item completeBlock) more (Nat.le_of_not_lt large)
    apply (onBlocks_ends ends).mono
    · rintro offset after ⟨disk, ⟨later, new, held, calm, added, _⟩, rfl⟩
      obtain ⟨padding, payload⟩ := added.payload
      have reserved := added.reserved
      unfold storageInitialReserved at reserved
      have dead : ∀ old, blockAt blocks offset = Option.some old → ¬ old.Live := by
        intro old found live
        rcases live with status | status <;> rw [added.unused old found] at status <;> cases status
      refine ⟨by omega, disk, later, rfl, holds.wrote split held calm added.added
        ⟨.of_payload stream holds.item.dataLen added.status payload, some, positive⟩ (by omega) ?_
        (Or.inr unwritten) ?_ ?_⟩
      · intro member
        obtain ⟨entry, present, rfl⟩ := List.mem_map.mp member
        obtain ⟨block, _, _, found, data⟩ := holds.item.entries entry
          (by rw [split]; exact List.mem_append_left _ present) (by omega)
        exact dead block found data.live
      · intro old found live
        exact absurd live (dead old found)
      · intro _
        rw [added.pool]
        exact poolSize_le_blockBound short
    · rintro failure after ⟨disk, full, rfl⟩
      cases failure with
      | code err => rcases full with same | same <;> cases same
      | abort site => exact trivial

/-- The block of the last entry is written over, or is too small. -/
theorem OwnAt.rewrite (holds : OwnAt s blocks state) (split : state.item.dataOffsets = front ++ [current])
    (written : current.offset ≠ 0) (stream : BlockHolds state.item.data points) (some : points ≠ [])
    (positive : ∀ point ∈ points, 0 < point.1.toInt) :
    (onBlocks (diskStorageWriteBlock current.offset (if completeBlock then .valid else .active)
        (storageBlock state.item completeBlock))).Ends state
      (fun _ after => ∃ disk later, after = { state with dataDiskStore := disk } ∧
        OwnStep s blocks later state ⟨state.item.wrote front current.offset completeBlock, disk⟩)
      (fun failure _ => ∃ site, failure = .abort site) := by
  have small := holds.item.small
  obtain ⟨block, complete, old, found, data⟩ := holds.item.entries current (by rw [split]; simp) written
  have used : block.status ≠ .empty := by
    rcases data.live with status | status <;> rw [status] <;> simp
  by_cases fits : (storageBlock state.item completeBlock).length ≤ getPoolSize block.pool
  · obtain ⟨disk, later, run, held, calm, content, _⟩ := holds.disk.writeBlock holds.quiet found used _
      (statusOf_live completeBlock) (storageBlock state.item completeBlock) fits
    refine EStateM.ends_of_ok (onBlocks_ok run) ⟨disk, later, rfl, holds.wrote split held calm content
      ⟨.of_payload stream holds.item.dataLen rfl rfl, some, positive⟩ written ?_ (Or.inl rfl) ?_ ?_⟩
    · have distinct := holds.item.distinct
      rw [split, List.map_append, List.nodup_append] at distinct
      intro member
      exact distinct.2.2 _ member _ (by simp) rfl
    · intro other again _
      rw [found] at again
      rw [← Option.some.inj again]
      exact data.carries (by omega)
    · intro bounded
      exact bounded current.offset block found
  · obtain ⟨after, run⟩ := writeBlock_large holds.disk.toDiskFiles found _ (statusOf_live completeBlock) _ fits
    exact EStateM.ends_of_error (onBlocks_error run) ⟨_, rfl⟩

/-- Writing the open block to disk keeps the blocks of the item. -/
theorem storageWriteDisk_owns (holds : OwnAt s blocks state) (completeBlock : Bool) :
    (storageWriteDisk completeBlock).Ends state (fun _ after => ∃ later, OwnStep s blocks later state after)
      (fun failure after =>
        match failure with
        | .code _ => ∃ later, OwnStep s blocks later state after
        | .abort _ => True) := by
  obtain ⟨points, stream, positive⟩ := holds.item.stream
  obtain ⟨front, current, offsets, owns⟩ := holds.item.opened
  unfold storageWriteDisk
  apply EStateM.ends_bind_ok (EStateM.get_apply state)
  by_cases count : 0 < state.item.data.data.numPts
  swap
  · exact EStateM.ends_of_error (EStateM.bind_error (by rw [require_apply, if_neg count]) _) trivial
  rw [require_bind count]
  by_cases time : 0 < (tscStartTime state.item.data.data).toInt
  swap
  · exact EStateM.ends_of_error (EStateM.bind_error (by rw [require_apply, if_neg time]) _) trivial
  rw [require_bind time]
  have some : points ≠ [] := by
    rintro rfl
    rw [stream.numPts] at count
    exact absurd count (Nat.lt_irrefl 0)
  dsimp only
  rw [offsets, getLastD_append_singleton, List.dropLast_concat]
  apply EStateM.ends_bind_ok (EStateM.modify_apply _ _)
  -- the item has an entry for its open block from here on
  generalize opened : ({ state with item := { state.item with dataOffsets := front ++ [current] } } : ItemStore) =
    begun
  have entry : OwnStep s blocks blocks state begun := by
    rw [← opened]
    exact ⟨⟨holds.disk, holds.quiet, rfl, rfl, rfl, Frame.refl _ _, id⟩, owns⟩
  have split : begun.item.dataOffsets = front ++ [current] := by rw [← opened]
  have same : storageBlock state.item completeBlock = storageBlock begun.item completeBlock := by
    rw [← opened]
    rfl
  have start : tscStartTime state.item.data.data = tscStartTime begun.item.data.data := by rw [← opened]
  have stream : BlockHolds begun.item.data points := by rw [← opened]; exact stream
  rw [same, start]
  clear offsets count time opened same start owns
  by_cases unwritten : current.offset = 0
  · rw [if_pos unwritten]
    apply EStateM.Ends.bind ((OwnAt.reserve entry.at split unwritten stream some positive).mono (fun _ _ done => done) ?_)
    · rintro offset after ⟨nonzero, disk, later, rfl, wrote⟩
      rw [require_bind nonzero]
      refine EStateM.ends_of_ok (?_ : _ = EStateM.Result.ok () _) ⟨later, entry.trans wrote⟩
      cases completeBlock <;> rfl
    · rintro failure after stopped
      cases failure with
      | code err => exact ⟨blocks, by rw [stopped]; exact entry⟩
      | abort site => exact trivial
  · rw [if_neg unwritten]
    by_cases time : current.startTime = tscStartTime begun.item.data.data
    swap
    · exact EStateM.ends_of_error (EStateM.bind_error (by rw [require_apply, if_neg time]) _) trivial
    rw [require_bind time]
    apply EStateM.Ends.bind ((OwnAt.rewrite entry.at split unwritten stream some positive).mono (fun _ _ done => done) ?_)
    · rintro _ after ⟨disk, later, rfl, wrote⟩
      refine EStateM.ends_of_ok (?_ : _ = EStateM.Result.ok () _) ⟨later, entry.trans wrote⟩
      have kept : front ++ [begun.item.entry current.offset] = begun.item.dataOffsets := by
        rw [StorageItem.entry, ← time, split]
      unfold StorageItem.wrote
      rw [kept]
      cases completeBlock <;> rfl
    · rintro failure after ⟨site, rfl⟩
      exact trivial

/-- One call of `tsc_add` on the stream of an item. -/
theorem tscAdd_owns (holds : OwnAt s blocks state) (point : Point) (late : 0 < point.1.toInt) :
    ∃ code after, resultCode (onData (tscAdd point.1 point.2)) state = .ok code after ∧
      OwnStep s blocks blocks state after := by
  obtain ⟨points, stream, positive⟩ := holds.item.stream
  have step := tscAdd_run state.item.data points stream point
  have touched : ∀ (data : TscHeader) (more : List Point), BlockHolds data more →
      (∀ point ∈ more, 0 < point.1.toInt) → data.dataLen = state.item.data.dataLen →
      OwnStep s blocks blocks state { state with item := { state.item with data := data } } := by
    intro data more stored all size
    exact ⟨⟨holds.disk, holds.quiet, rfl, rfl, rfl, Frame.refl _ _, id⟩,
      { holds.item with stream := ⟨more, stored, all⟩, dataLen := size.trans holds.item.dataLen }⟩
  cases verdict : admission state.item.data.dataLen points point with
  | none =>
      rw [verdict] at step
      obtain ⟨data, run, stored, size⟩ := step
      refine ⟨none, _, resultCode_onData_ok run, touched data _ stored ?_ size⟩
      intro other member
      rcases List.mem_append.mp member with old | new
      · exact positive other old
      · rw [List.mem_singleton.mp new]
        exact late
  | some err =>
      rw [verdict] at step
      obtain ⟨data, run, stored, size⟩ := step
      exact ⟨some err, _, resultCode_onData_code run, touched data _ stored positive size⟩

/-- One round of the loop of `storage_write`. -/
theorem storageWritePoint_owns (holds : OwnAt s blocks state) (point : Point) (late : 0 < point.1.toInt) :
    (storageWritePoint point).Ends state (fun _ after => ∃ later, OwnStep s blocks later state after)
      (fun failure after =>
        match failure with
        | .code _ => ∃ later, OwnStep s blocks later state after
        | .abort _ => True) := by
  obtain ⟨code, next, run, step⟩ := tscAdd_owns holds point late
  have refused : ∀ err : Err, (throw (.code err) : ItemM Unit).Ends next
      (fun _ after => ∃ later, OwnStep s blocks later state after)
      (fun failure after =>
        match failure with
        | .code _ => ∃ later, OwnStep s blocks later state after
        | .abort _ => True) :=
    fun err => @EStateM.ends_of_error _ _ _ _ _ _ _ (.code err) next rfl ⟨blocks, step⟩
  unfold storageWritePoint
  apply EStateM.ends_bind_ok run
  cases code with
  | none => exact EStateM.ends_of_ok rfl ⟨blocks, step⟩
  | some err =>
      cases err with
      | tscOutOfSpace =>
          apply EStateM.Ends.bind ((storageWriteDisk_owns step.at true).mono (fun _ _ done => done) ?_)
          · rintro _ flushed ⟨later, wrote⟩
            obtain ⟨code, after, again, stored⟩ := tscAdd_owns wrote.at point late
            apply EStateM.ends_bind_ok again
            cases code with
            | none => exact EStateM.ends_of_ok rfl ⟨later, (step.trans wrote).trans stored⟩
            | some err => exact EStateM.ends_of_error rfl trivial
          · intro failure after stopped
            cases failure with
            | code err =>
                obtain ⟨later, kept⟩ := stopped
                exact ⟨later, step.trans kept⟩
            | abort site => exact trivial
      | _ => exact refused _

/-- The loop of `storage_write`. -/
theorem storageWriteLoop_owns (points : List Point) :
    ∀ {blocks : List Block} {state : ItemStore}, OwnAt s blocks state → (∀ point ∈ points, 0 < point.1.toInt) →
      (storageWriteLoop points).Ends state (fun _ after => ∃ later, OwnStep s blocks later state after)
        (fun failure _ => ∃ site, failure = .abort site ∧ True) := by
  induction points with
  | nil =>
      intro blocks state holds _
      exact EStateM.ends_of_ok rfl ⟨blocks, holds.refl⟩
  | cons point rest ih =>
      intro blocks state holds positive
      obtain ⟨late, others⟩ := List.forall_mem_cons.mp positive
      have called : (resultCode (storageWritePoint point)).Ends state
          (fun _ after => ∃ later, OwnStep s blocks later state after)
          (fun failure _ => ∃ site, failure = .abort site ∧ True) := by
        apply resultCode_ends
        apply (storageWritePoint_owns holds point late).mono (fun _ _ done => done)
        intro failure after stopped
        cases failure with
        | code err => exact stopped
        | abort site => exact ⟨site, rfl, trivial⟩
      unfold storageWriteLoop
      apply EStateM.Ends.bind called
      rintro code after ⟨middle, step⟩
      cases code with
      | none =>
          apply EStateM.Ends.bind (ih step.at others)
          rintro written final ⟨later, more⟩
          exact EStateM.ends_of_ok rfl ⟨later, step.trans more⟩
      | some err => exact EStateM.ends_of_ok rfl ⟨middle, step⟩

/-- Every function on an item keeps the blocks that it owns. -/
theorem ownLaw (s : Nat) : ItemLaw s (ItemOwns s) fun _ => True where
  owns := fun _ owns => owns
  fresh := fun stream dataLen small unused => .fresh stream dataLen small unused
  frame := fun owns different frame => owns.frame different frame
  trim := fun _ owns _ released => owns.trimmed released
  write := fun points holds positive => storageWriteLoop_owns points holds positive
  sync := fun holds => storageWriteDisk_owns holds false

end

end Menoetius
