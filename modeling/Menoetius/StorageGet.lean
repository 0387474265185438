import Menoetius.StorageModel

/-
This file follows `storage_get` over the blocks of an item.
-/

namespace Menoetius
open LittleEndian

section
variable {s internalId maxNumPts : Nat} {disk : DiskStorage} {blocks : List Block} {points : List Point}

/-- The block of an entry fits the buffer of `storage_get`. -/
def Readable (content : Nat → Option Block) (entry : OffsetAndTime) : Prop :=
  ∀ block, content entry.offset = some block → getPoolSize block.pool ≤ storageGetBufN

/-- How a read can fail: the points do not fit the arrays, or a block does not fit the buffer. -/
def GetFails (maxNumPts : Nat) (content : Nat → Option Block) (entries : List OffsetAndTime) (count : Nat)
    (failure : Failure) : Prop :=
  (failure = .code .tooManyPoints ∧ maxNumPts < count) ∨
    (failure = .abort .storageGetRead ∧ ∃ entry ∈ entries, ¬ Readable content entry)

/-- Reading a block in use leaves the store as it is, with the descriptor somewhere else. -/
theorem readBlock_ends (holds : DiskHolds disk blocks) {entry : OffsetAndTime} {block : Block}
    (found : blockAt blocks entry.offset = some block) (live : block.Live) :
    (mustSucceed (diskStorageReadBlock entry.offset storageGetBufN) .storageGetRead).Ends disk
      (fun result after => result = (block.status.code, block.payload) ∧
        getPoolSize block.pool ≤ storageGetBufN ∧ ∃ pos, after = disk.seekTo pos)
      (fun failure _ => failure = .abort .storageGetRead ∧ ¬ Readable (blockAt blocks) entry) := by
  have used : block.status ≠ .empty := by
    rcases live with status | status <;> rw [status] <;> simp
  obtain ⟨front, back, split, place⟩ := (blockAt_eq_some _ _ _).mp found
  rw [place]
  by_cases room : getPoolSize block.pool ≤ storageGetBufN
  · obtain ⟨pos, read⟩ := readBlock_run holds.toDiskFiles split used storageGetBufN room
    exact EStateM.ends_of_ok (by rw [mustSucceed, read]; rfl) ⟨rfl, room, pos, rfl⟩
  · obtain ⟨after, read⟩ := readBlock_large holds.toDiskFiles split used storageGetBufN (Nat.lt_of_not_le room)
    exact EStateM.ends_of_error (by rw [mustSucceed, read]) ⟨rfl, fun readable => room (readable block found)⟩

/-- The points of a complete block, as `storage_get` reads them. -/
theorem DataBlock.getPoints {block : Block} (data : DataBlock s internalId true points block)
    (room : getPoolSize block.pool ≤ storageGetBufN) (before : List Point) :
    storageGetPoints maxNumPts before
        (TscData.ofBytes (block.payload.drop 8).length (block.payload.drop 8)) =
      if maxNumPts < before.length + points.length then .error (.code .tooManyPoints)
      else .ok (before ++ points) := by
  obtain ⟨p, rest, holds, size, payload⟩ := data.image
  have bytes : block.payload.drop 8 = p.data.toBytes ++ rest := by
    rw [payload, List.drop_left' (bytesOf_length _ _)]
    rfl
  have length : (block.payload.drop 8).length ≤ storageGetBufN := by
    rw [List.length_drop, block.whole]
    omega
  have whole := holds.toBytes_length
  rw [bytes, List.length_append] at length
  unfold storageGetBufN at length
  unfold storageGetPoints
  rw [bytes, holds.iterRun_ofBytes _ rest (by rw [List.length_append]; omega)
    (by rw [List.length_append]; unfold maxNumValidBits; omega) (by rw [List.length_append]; omega)]

/-- The loop over the data offsets ends behind the complete blocks. -/
theorem storageGetBlocks_ends {front last : List OffsetAndTime} {complete : List (List Point)} {series : Series}
    (small : internalId < 2 ^ 63)
    (entries : List.Forall₂ (EntryHolds s (blockAt blocks) internalId) front complete)
    (open_ : LastHolds s (blockAt blocks) internalId series last) :
    ∀ {disk : DiskStorage} (before : List Point), DiskHolds disk blocks →
      (storageGetBlocks internalId maxNumPts (front ++ last) before).Ends disk
        (fun result after => result = before ++ complete.flatten ∧
          (∀ entry ∈ front ++ last, Readable (blockAt blocks) entry) ∧ ∃ pos, after = disk.seekTo pos)
        (fun failure _ => GetFails maxNumPts (blockAt blocks) (front ++ last)
          (before.length + complete.flatten.length) failure) := by
  induction entries with
  | nil =>
      intro disk before holds
      rw [List.nil_append, List.flatten_nil, List.append_nil]
      cases open_ with
      | unused first none => exact EStateM.ends_of_ok rfl ⟨rfl, by simp, disk.fd.pos, rfl⟩
      | unwritten startTime none =>
          refine EStateM.ends_of_ok rfl ⟨rfl, ?_, disk.fd.pos, rfl⟩
          intro entry member block there
          rw [List.mem_singleton.mp member, blockAt_zero] at there
          cases there
      | written entry points block found data copy start part =>
          have nonzero : entry.offset ≠ 0 := by
            have least := blockAt_ge found
            unfold storageInitialReserved at least
            omega
          have status : block.status.code = BlockStatus.active.code := by
            rw [data.status]
            rfl
          unfold storageGetBlocks
          rw [if_neg nonzero]
          apply EStateM.Ends.bind ((readBlock_ends holds found data.live).mono (fun _ _ done => done)
            fun _ _ failed => Or.inr ⟨failed.1, entry, List.mem_cons_self, failed.2⟩)
          rintro _ after ⟨rfl, room, moved⟩
          dsimp only
          rw [if_pos status, require_bind rfl]
          refine EStateM.ends_of_ok rfl ⟨rfl, ?_, moved⟩
          intro other member block' there
          rw [List.mem_singleton.mp member, found] at there
          rw [← Option.some.inj there]
          exact room
  | @cons entry points front complete first rest ih =>
      intro disk before holds
      obtain ⟨block, found, data⟩ := first.block
      have least := blockAt_ge found
      unfold storageInitialReserved at least
      have carried : valueOf (block.payload.take 8) = internalId := data.carries (by omega)
      have status : block.status.code ≠ BlockStatus.active.code := by
        rw [data.status]
        decide
      rw [List.cons_append, List.flatten_cons, List.length_append]
      unfold storageGetBlocks
      rw [if_neg (by omega)]
      apply EStateM.Ends.bind ((readBlock_ends holds found data.live).mono (fun _ _ done => done)
        fun _ _ failed => Or.inr ⟨failed.1, entry, List.mem_cons_self, failed.2⟩)
      rintro _ after ⟨rfl, room, pos, rfl⟩
      dsimp only
      rw [if_neg status, require_bind carried, data.getPoints room before]
      split
      · rename_i many
        exact EStateM.ends_of_error (EStateM.bind_error rfl _) (Or.inl ⟨rfl, by omega⟩)
      · apply EStateM.ends_bind_ok rfl
        apply (ih (before ++ points) (holds.seekTo pos)).mono
        · rintro result final ⟨read, readable, last, moved⟩
          refine ⟨by rw [read, List.append_assoc], List.forall_mem_cons.mpr ⟨?_, readable⟩, last, ?_⟩
          · intro other there
            rw [found] at there
            rw [← Option.some.inj there]
            exact room
          · rw [moved, seekTo_seekTo]
        · intro failure final failed
          rw [List.length_append, Nat.add_assoc] at failed
          rcases failed with many | ⟨abort, other, member, large⟩
          · exact Or.inl many
          · exact Or.inr ⟨abort, other, List.mem_cons_of_mem _ member, large⟩

end

section
variable {keeps : (Nat → Option Block) → StorageItem → Prop} {store : Storage} {keyBlocks dataBlocks : List Block}
  {model : Model} {key : List UInt8} {series : Series}

theorem Storage.withItem_self {item : StorageItem} (distinct : (store.items.map StorageItem.internalId).Nodup)
    (member : item ∈ store.items) (disk : DiskStorage) :
    store.withItem ⟨item, disk⟩ = { store with dataDiskStore := disk } := by
  have same : store.items.map (fun other => if other.internalId = item.internalId then item else other) =
      store.items := by
    conv_rhs => rw [← List.map_id store.items]
    apply List.map_congr_left
    intro other present
    split
    · rename_i here
      exact (eq_of_nodup_map distinct present member here).symm
    · rfl
  rw [Storage.withItem, same]

/-- A read returns the points of the complete blocks and those in memory. -/
theorem storageGet_ends (holds : StorageHolds keeps store keyBlocks dataBlocks) {item : StorageItem}
    (member : item ∈ store.items) (named : item.key = some key)
    (own : ItemHolds store.initialTscBufSize (blockAt dataBlocks) item series) (maxNumPts : Nat) :
    (storageGet key maxNumPts).Ends store
      (fun points after => points = series.points ∧ series.points.length ≤ maxNumPts ∧
        (∀ entry ∈ item.dataOffsets, Readable (blockAt dataBlocks) entry) ∧
        ∃ pos, after = { store with dataDiskStore := store.dataDiskStore.seekTo pos })
      (fun failure _ => GetFails maxNumPts (blockAt dataBlocks) item.dataOffsets series.points.length failure) := by
  obtain ⟨front, last, split, entries, open_⟩ := own.entries
  unfold storageGet
  apply EStateM.ends_bind_ok (storageGetItem_present holds.keysDistinct member named false)
  have reads := @storageGetBlocks_ends _ item.internalId maxNumPts _ _ _ _ _ own.small entries open_
    store.dataDiskStore [] holds.dataDisk
  rw [← split, List.nil_append, List.length_nil, Nat.zero_add] at reads
  refine EStateM.Ends.mono (@onItem_ends _ store item _
    (fun points after => points = series.points ∧ series.points.length ≤ maxNumPts ∧
      (∀ entry ∈ item.dataOffsets, Readable (blockAt dataBlocks) entry) ∧
      ∃ pos, after = ⟨item, store.dataDiskStore.seekTo pos⟩)
    (fun failure _ => GetFails maxNumPts (blockAt dataBlocks) item.dataOffsets series.points.length failure)
    holds.ids member ?_) ?_ ?_
  · apply EStateM.ends_bind_ok (EStateM.get_apply _)
    apply EStateM.Ends.bind ((onBlocks_ends reads).mono (fun _ _ done => done) ?_)
    · rintro _ after ⟨disk, ⟨rfl, readable, pos, rfl⟩, rfl⟩
      dsimp only
      rw [storageGetPoints, tscIterRun_points _ _ own.stream]
      dsimp only
      split
      · rename_i many
        refine EStateM.ends_of_error rfl (Or.inl ⟨rfl, ?_⟩)
        rw [Series.points, List.length_append]
        exact many
      · rename_i few
        refine EStateM.ends_of_ok rfl ⟨rfl, ?_, readable, pos, rfl⟩
        rw [Series.points, List.length_append]
        exact Nat.le_of_not_lt few
    · rintro failure after ⟨disk, failed, rfl⟩
      rw [Series.points, List.length_append]
      rcases failed with ⟨code, many⟩ | large
      · exact Or.inl ⟨code, by omega⟩
      · exact Or.inr large
  · rintro points after ⟨state, ⟨read, few, readable, pos, rfl⟩, rfl⟩
    exact ⟨read, few, readable, pos, Storage.withItem_self holds.ids member _⟩
  · rintro failure after ⟨state, failed, rfl⟩
    exact failed

/-- A read into arrays that are large enough. -/
theorem storageGet_run (models : StorageModels store keyBlocks dataBlocks model)
    (small : store.initialTscBufSize + 38 ≤ 2 ^ 20) (found : model key = some series) (maxNumPts : Nat)
    (few : series.points.length ≤ maxNumPts) :
    ∃ pos, storageGet key maxNumPts store =
      .ok series.points { store with dataDiskStore := store.dataDiskStore.seekTo pos } := by
  obtain ⟨item, member, named, own⟩ := models.find found
  obtain ⟨points, after, run, rfl, _, _, pos, rfl⟩ :=
    (storageGet_ends models.toStorageHolds member named own maxNumPts).returns (by
      rintro failure final (⟨_, many⟩ | ⟨_, entry, _, large⟩)
      · omega
      · exact large fun block there => (models.dataBounded _ block there).trans (blockBound_le small))
  exact ⟨pos, run⟩

/-- More points than fit are an error. -/
theorem storageGetAll_length_le {after : Storage} {points : List Point} {internalId maxNumPts : Nat}
    (run : onItem internalId (storageGetAll internalId maxNumPts) store = .ok points after) :
    points.length ≤ maxNumPts := by
  unfold onItem at run
  split at run
  · cases run
  · split at run
    · rename_i more
      cases run
      obtain ⟨held, _, _, more⟩ := EStateM.of_bind_ok more
      obtain ⟨front, _, _, more⟩ := EStateM.of_bind_ok more
      unfold storageGetPoints at more
      split at more
      · split at more
        · cases more
        · cases more
          rw [List.length_append]
          omega
      · cases more
    · cases run

theorem storageGet_length_le {after : Storage} {points : List Point} {maxNumPts : Nat}
    (run : storageGet key maxNumPts store = .ok points after) : points.length ≤ maxNumPts := by
  obtain ⟨internalId, _, _, run⟩ := EStateM.of_bind_ok run
  exact storageGetAll_length_le run

theorem storageGet_missing (absent : ∀ item ∈ store.items, item.key ≠ some key) (maxNumPts : Nat) :
    storageGet key maxNumPts store = .error (.code .lookupFailed) store :=
  EStateM.bind_error (storageGetItem_absent absent) _

theorem storageGet_absent (models : StorageModels store keyBlocks dataBlocks model) (none : model key = none)
    (maxNumPts : Nat) : storageGet key maxNumPts store = .error (.code .lookupFailed) store :=
  storageGet_missing (models.absent none) maxNumPts

end

end Menoetius
