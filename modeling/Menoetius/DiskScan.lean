import Menoetius.DiskReach

/-
This file follows `disk_storage_read_blocks_from_start` over the blocks of a main file.
-/

namespace Menoetius
open FileImage

/-- The descriptor stands between two parts of the main file. -/
structure ScanAt (store : DiskStorage) (before behind : List UInt8) : Prop where
  bytes : store.fd.bytes = before ++ behind
  pos : store.fd.pos = before.length
  reserved : storageInitialReserved ≤ before.length
  short : store.fd.bytes.length < offsetLimit

section
variable {store : DiskStorage} {before behind : List UInt8} {maxN : Nat}

/-- The store with its descriptor somewhere else. -/
def DiskStorage.seekTo (store : DiskStorage) (pos : Nat) : DiskStorage :=
  store.withFile ⟨store.fd.bytes, pos⟩ .fd

@[simp] theorem seekTo_bytes (pos : Nat) : (store.seekTo pos).fd.bytes = store.fd.bytes := rfl

@[simp] theorem seekTo_pos (pos : Nat) : (store.seekTo pos).fd.pos = pos := rfl

@[simp] theorem seekTo_seekTo (first second : Nat) :
    (store.seekTo first).seekTo second = store.seekTo second := rfl

@[simp] theorem seekTo_self : store.seekTo store.fd.pos = store := rfl

@[simp] theorem seekTo_numBeforeCrash (pos : Nat) :
    (store.seekTo pos).numBeforeCrash = store.numBeforeCrash := rfl

theorem DiskHolds.seekTo {blocks : List Block} (holds : DiskHolds store blocks) (pos : Nat) :
    DiskHolds (store.seekTo pos) blocks :=
  ⟨holds.toDiskFiles.fd_moved pos, holds.free⟩

/-- The scan moves over a known part. -/
theorem ScanAt.skip {part : List UInt8} (scan : ScanAt store before (part ++ behind)) :
    ScanAt (store.seekTo (before.length + part.length)) (before ++ part) behind where
  bytes := by rw [seekTo_bytes, scan.bytes, List.append_assoc]
  pos := by rw [seekTo_pos, List.length_append]
  reserved := by
    have reserved := scan.reserved
    rw [List.length_append]
    omega
  short := scan.short

theorem ScanAt.length (scan : ScanAt store before behind) :
    store.fd.bytes.length = before.length + behind.length := by
  rw [scan.bytes, List.length_append]

/-- The first steps of a round. -/
theorem ScanAt.header (scan : ScanAt store before behind) :
    mustLseek .fd 0 .cur store = .ok before.length store ∧
      read .fd blockHeaderSize store =
        .ok (behind.take blockHeaderSize)
          (store.seekTo (before.length + (behind.take blockHeaderSize).length)) := by
  have length := scan.length
  have short := scan.short
  have target : lseekTarget (store.file .fd) 0 .cur = before.length := by
    rw [lseekTarget, Nat.add_zero]
    exact scan.pos
  constructor
  · rw [mustLseek_run 0 .cur (by rw [target]; omega), target, ← scan.pos]
    rfl
  · have data : readAt store.fd.bytes store.fd.pos blockHeaderSize = behind.take blockHeaderSize := by
      rw [readAt, scan.bytes, scan.pos, List.drop_left]
    rw [read_run]
    change EStateM.Result.ok (readAt store.fd.bytes store.fd.pos blockHeaderSize) (store.seekTo
      (store.fd.pos + (readAt store.fd.bytes store.fd.pos blockHeaderSize).length)) = _
    rw [data, scan.pos]

theorem ScanAt.positive (scan : ScanAt store before behind) : 0 < before.length :=
  lt_of_lt_of_le (by decide) scan.reserved

/-- The scan reads nothing behind the end of the file. -/
theorem readBlocksLoop_past (past : store.fd.bytes.length ≤ store.fd.pos)
    (positive : 0 < store.fd.pos) (short : store.fd.pos < offsetLimit) (fuel : Nat) :
    readBlocksLoop maxN fuel store = .ok none store := by
  cases fuel with
  | zero => rfl
  | succ fuel =>
      have target : lseekTarget (store.file .fd) 0 .cur = store.fd.pos := rfl
      have seek := @mustLseek_run store .fd 0 .cur (by rw [target]; exact short)
      have data : readAt store.fd.bytes store.fd.pos blockHeaderSize = [] := by
        rw [readAt, List.drop_eq_nil_of_le past, List.take_nil]
      have reads : read .fd blockHeaderSize store = .ok [] store := by
        rw [read_run]
        change EStateM.Result.ok (readAt store.fd.bytes store.fd.pos blockHeaderSize)
          (store.seekTo (store.fd.pos + (readAt store.fd.bytes store.fd.pos blockHeaderSize).length)) = _
        rw [data]
        rfl
      rw [readBlocksLoop, EStateM.bind_ok seek]
      change (require (0 < store.fd.pos) .readBlocksOffset >>= _) store = _
      rw [require_bind positive, EStateM.bind_ok reads, if_pos List.length_nil]
      rfl

/-- The scan stops at the end of the file. -/
theorem readBlocksLoop_end (scan : ScanAt store before []) (fuel : Nat) :
    readBlocksLoop maxN fuel store = .ok none store := by
  have length := scan.length
  have short := scan.short
  have positive := scan.positive
  rw [List.length_nil, Nat.add_zero] at length
  apply readBlocksLoop_past
  · rw [scan.pos, length]
  · rw [scan.pos]
    exact positive
  · rw [scan.pos, ← length]
    exact short

theorem code_lt (status : BlockStatus) : status.code.toNat < blockNumStatuses := by
  cases status <;> decide

theorem Block.header_known (block : Block) :
    ¬ (blockNumStatuses ≤ block.status.code.toNat ∨ numDiskPools ≤ (UInt8.ofNat block.pool).toNat) := by
  have status := code_lt block.status
  have pool := block.pool.isLt
  rw [ofNat_pool]
  omega

theorem Block.live_code (block : Block) :
    (block.status.code = BlockStatus.valid.code ∨ block.status.code = BlockStatus.active.code) ↔
      block.Live := by
  unfold Block.Live
  cases block.status <;> decide

/-- A round at a block, up to the test of its status. -/
theorem readBlocksLoop_block {block : Block} (scan : ScanAt store before (block.image ++ behind))
    (fits : getPoolSize block.pool ≤ maxN) (fuel : Nat) :
    readBlocksLoop maxN (fuel + 1) store =
      (if block.Live then do
        let buf ← read .fd (getPoolSize block.pool)
        require (buf.length = getPoolSize block.pool) .readBlocksShort
        pure (some ⟨before.length, block.status.code, buf⟩)
      else do
        let _ ← mustLseek .fd (getPoolSize block.pool) .cur
        readBlocksLoop maxN fuel : DiskM (Option BlockRead))
          (store.seekTo (before.length + blockHeaderSize)) := by
  obtain ⟨seek, reads⟩ := scan.header
  have data : (block.image ++ behind).take blockHeaderSize =
      [block.status.code, UInt8.ofNat block.pool] := rfl
  rw [data] at reads
  rw [readBlocksLoop, EStateM.bind_ok seek, require_bind scan.positive, EStateM.bind_ok reads,
    if_neg (by simp), if_neg (not_not.mpr (header_length block)), header_status, header_pool,
    if_neg block.header_known, ofNat_pool, if_neg (Nat.not_lt.mpr fits)]
  simp only [block.live_code]
  rfl

/-- The scan skips a block that is not live. -/
theorem readBlocksLoop_dead {block : Block} (scan : ScanAt store before (block.image ++ behind))
    (fits : getPoolSize block.pool ≤ maxN) (dead : ¬ block.Live) (fuel : Nat) :
    readBlocksLoop maxN (fuel + 1) store =
      readBlocksLoop maxN fuel (store.seekTo (before.length + block.span)) := by
  have length := scan.length
  have short := scan.short
  rw [List.length_append, Block.image_length] at length
  have target : lseekTarget ((store.seekTo (before.length + blockHeaderSize)).file .fd)
      (getPoolSize block.pool) .cur = before.length + block.span := by
    unfold Block.span
    rw [← Nat.add_assoc]
    rfl
  rw [readBlocksLoop_block scan fits, if_neg dead,
    EStateM.bind_ok (mustLseek_run _ .cur (by rw [target]; omega)), target]
  rfl

/-- The scan returns a live block. -/
theorem readBlocksLoop_live {block : Block} (scan : ScanAt store before (block.image ++ behind))
    (fits : getPoolSize block.pool ≤ maxN) (live : block.Live) (fuel : Nat) :
    readBlocksLoop maxN (fuel + 1) store =
      .ok (some ⟨before.length, block.status.code, block.payload⟩)
        (store.seekTo (before.length + block.span)) := by
  have data : readAt store.fd.bytes (before.length + blockHeaderSize) (getPoolSize block.pool) =
      block.payload := by
    rw [scan.bytes, readAt, ← List.drop_drop, List.drop_left]
    change (block.payload ++ behind).take (getPoolSize block.pool) = _
    rw [← block.whole, List.take_left]
  have reads : read .fd (getPoolSize block.pool) (store.seekTo (before.length + blockHeaderSize)) =
      .ok block.payload (store.seekTo (before.length + block.span)) := by
    rw [read_run]
    change EStateM.Result.ok
      (readAt store.fd.bytes (before.length + blockHeaderSize) (getPoolSize block.pool))
      (store.seekTo (before.length + blockHeaderSize +
        (readAt store.fd.bytes (before.length + blockHeaderSize) (getPoolSize block.pool)).length)) = _
    rw [data, block.whole, Block.span, Nat.add_assoc]
  rw [readBlocksLoop_block scan fits, if_pos live, EStateM.bind_ok reads, require_bind block.whole]
  rfl

/-- The scan refuses a block that the caller has no room for. -/
theorem readBlocksLoop_large {block : Block} (scan : ScanAt store before (block.image ++ behind))
    (large : maxN < getPoolSize block.pool) (fuel : Nat) :
    ∃ after, readBlocksLoop maxN (fuel + 1) store = .error (.code (.res 2)) after := by
  obtain ⟨seek, reads⟩ := scan.header
  have data : (block.image ++ behind).take blockHeaderSize =
      [block.status.code, UInt8.ofNat block.pool] := rfl
  rw [data] at reads
  refine ⟨store.seekTo (before.length + blockHeaderSize), ?_⟩
  rw [readBlocksLoop, EStateM.bind_ok seek, require_bind scan.positive, EStateM.bind_ok reads,
    if_neg (by simp), if_neg (not_not.mpr (header_length block)), header_status, header_pool,
    if_neg block.header_known, ofNat_pool, if_pos large]
  rfl

/-- What a block looks like to a caller of the scan. -/
def Block.readAt (block : Block) (offset : Nat) : BlockRead := ⟨offset, block.status.code, block.payload⟩

/-- What one call of the scan returns, over the blocks from its position on. -/
def ReadNext (store : DiskStorage) (start : Nat) (back : List Block) (result : Option BlockRead)
    (after : DiskStorage) : Prop :=
  match result with
  | none => (∃ pos, after = store.seekTo pos) ∧ ∀ block ∈ back, ¬ block.Live
  | some found => ∃ dead block rest, back = dead ++ block :: rest ∧ (∀ other ∈ dead, ¬ other.Live) ∧
      block.Live ∧ found = block.readAt (start + spanOf dead) ∧
      after = store.seekTo (start + spanOf dead + block.span)

/-- A block in front that is not live does not change the next result. -/
theorem ReadNext.cons {start : Nat} {back : List Block} {block : Block} {result : Option BlockRead}
    {after : DiskStorage} (dead : ¬ block.Live)
    (next : ReadNext (store.seekTo (start + block.span)) (start + block.span) back result after) :
    ReadNext store start (block :: back) result after := by
  cases result with
  | none =>
      obtain ⟨⟨pos, moved⟩, none⟩ := next
      exact ⟨⟨pos, moved⟩, List.forall_mem_cons.mpr ⟨dead, none⟩⟩
  | some found =>
      obtain ⟨skipped, other, rest, split, none, live, same, moved⟩ := next
      refine ⟨block :: skipped, other, rest, by rw [split]; rfl, List.forall_mem_cons.mpr ⟨dead, none⟩,
        live, ?_, ?_⟩
      · rw [same, spanOf_cons, Nat.add_assoc]
      · rw [moved, spanOf_cons, seekTo_seekTo, Nat.add_assoc start]

/-- The loop finds the next live block, when it ends well behind the last block. -/
theorem readBlocksLoop_ends (back : List Block) (least : Nat) {stop : Failure → DiskStorage → Prop}
    (tail : List UInt8) :
    ∀ (store : DiskStorage) (before : List UInt8) (fuel : Nat),
      ScanAt store before (imageOf back ++ tail) → back.length + least ≤ fuel →
      (∀ fuel, least ≤ fuel → (readBlocksLoop maxN fuel).Ends (store.seekTo (before.length + spanOf back))
        (fun result after => result = none ∧ ∃ pos, after = store.seekTo pos) stop) →
      (readBlocksLoop maxN fuel).Ends store (ReadNext store before.length back)
        (fun failure after => (failure = .code (.res 2) ∧ ∃ block ∈ back, maxN < getPoolSize block.pool) ∨
          stop failure after) := by
  induction back with
  | nil =>
      intro store before fuel scan enough ends
      have last := ends fuel (by simpa using enough)
      rw [spanOf_nil, Nat.add_zero, ← scan.pos, seekTo_self] at last
      apply last.mono
      · rintro result after ⟨rfl, moved⟩
        exact ⟨moved, by simp⟩
      · intro failure after stopped
        exact Or.inr stopped
  | cons block back ih =>
      intro store before fuel scan enough ends
      rw [List.length_cons] at enough
      obtain ⟨fuel, rfl⟩ : ∃ less, fuel = less + 1 := ⟨fuel - 1, by omega⟩
      rw [imageOf_cons, List.append_assoc] at scan
      by_cases fits : getPoolSize block.pool ≤ maxN
      · by_cases live : block.Live
        · refine EStateM.ends_of_ok (readBlocksLoop_live scan fits live fuel) ?_
          exact ⟨[], block, back, rfl, by simp, live, rfl, rfl⟩
        · apply EStateM.ends_of_eq (readBlocksLoop_dead scan fits live fuel)
          have next := scan.skip
          rw [Block.image_length] at next
          have later := ih (store.seekTo (before.length + block.span)) (before ++ block.image) fuel next
            (by omega) (by
              intro more some
              rw [List.length_append, Block.image_length, Nat.add_assoc, ← spanOf_cons, seekTo_seekTo]
              exact ends more some)
          rw [List.length_append, Block.image_length] at later
          apply later.mono
          · intro result after found
            exact found.cons live
          · rintro failure after (⟨code, big, member, large⟩ | stopped)
            · exact Or.inl ⟨code, big, List.mem_cons_of_mem _ member, large⟩
            · exact Or.inr stopped
      · obtain ⟨after, failed⟩ := readBlocksLoop_large scan (Nat.lt_of_not_le fits) fuel
        exact EStateM.ends_of_error failed (Or.inl ⟨rfl, block, List.mem_cons_self, Nat.lt_of_not_le fits⟩)

/-- The first call of a scan starts behind the reserved bytes. -/
theorem readBlocksFromStart_initial (maxN : Nat) :
    diskStorageReadBlocksFromStart true maxN store =
      diskStorageReadBlocksFromStart false maxN (store.seekTo storageInitialReserved) := by
  have seek := @mustLseek_run store .fd storageInitialReserved .set (show 64 < offsetLimit by decide)
  unfold diskStorageReadBlocksFromStart
  simp only [if_true, Bool.false_eq_true, if_false]
  rw [EStateM.bind_ok seek]
  rfl

theorem readBlocksFromStart_next (maxN : Nat) :
    diskStorageReadBlocksFromStart false maxN store =
      readBlocksLoop maxN (store.fd.bytes.length + 1) store := by
  unfold diskStorageReadBlocksFromStart
  simp only [Bool.false_eq_true, if_false]
  rfl

theorem spanOf_ge (blocks : List Block) : blocks.length ≤ spanOf blocks := by
  induction blocks with
  | nil => rfl
  | cons block blocks ih =>
      have positive := block.span_pos
      rw [List.length_cons, spanOf_cons]
      omega

/-- The descriptor stands in front of the blocks that a scan has not yet seen. -/
theorem DiskFiles.scanAt {front back : List Block} (files : DiskFiles store (front ++ back))
    (pos : store.fd.pos = storageInitialReserved + spanOf front) :
    ScanAt store (store.fd.bytes.take storageInitialReserved ++ imageOf front) (imageOf back) where
  bytes := by
    have body := files.body
    rw [imageOf_append] at body
    rw [List.append_assoc, ← body, List.take_append_drop]
  pos := by
    rw [pos, List.length_append, List.length_take, imageOf_length, Nat.min_eq_left files.header.reserved]
  reserved := by
    rw [List.length_append, List.length_take, Nat.min_eq_left files.header.reserved]
    omega
  short := files.header.short

/-- One call of a scan over the whole blocks of a store. -/
theorem readBlocksFromStart_ends {front back : List Block} (files : DiskFiles store (front ++ back))
    (pos : store.fd.pos = storageInitialReserved + spanOf front) :
    (diskStorageReadBlocksFromStart false maxN).Ends store
      (ReadNext store (storageInitialReserved + spanOf front) back)
      (fun failure _ => failure = .code (.res 2) ∧ ∃ block ∈ back, maxN < getPoolSize block.pool) := by
  have scan := files.scanAt pos
  have place : (store.fd.bytes.take storageInitialReserved ++ imageOf front).length =
      storageInitialReserved + spanOf front := by rw [← pos, ← scan.pos]
  have spans := spanOf_ge back
  have length := scan.length
  rw [imageOf_length, place] at length
  rw [← List.append_nil (imageOf back)] at scan
  have ends := @readBlocksLoop_ends maxN back 0 (fun _ _ => False) [] store _ (store.fd.bytes.length + 1)
    scan (by omega) (by
      intro fuel _
      have last := scan.skip
      rw [imageOf_length] at last
      exact EStateM.ends_of_ok (readBlocksLoop_end last fuel) ⟨rfl, _, rfl⟩)
  rw [place] at ends
  apply EStateM.ends_of_eq (readBlocksFromStart_next maxN)
  apply ends.mono
  · intro result after next
    exact next
  · rintro failure after (large | never)
    · exact large
    · exact never.elim

end

/-- The loop of the callers over a scan. Each call moves the descriptor forward. -/
def scanBlocks (maxN : Nat) : Nat → Bool → DiskM (List BlockRead)
  | 0, _ => pure []
  | fuel + 1, initial => do
      match ← diskStorageReadBlocksFromStart initial maxN with
      | none => pure []
      | some found => do
          let rest ← scanBlocks maxN fuel false
          pure (found :: rest)

/-- A full scan of the store. -/
def scanAll (maxN : Nat) : DiskM (List BlockRead) := do
  scanBlocks maxN ((← get).fd.bytes.length + 1) true

/-- The live blocks, in the order of the file. -/
def liveReads (start : Nat) (blocks : List Block) : List BlockRead :=
  ((placed start blocks).filter fun entry => entry.2.Live).map fun entry => entry.2.readAt entry.1

theorem liveReads_dead (start : Nat) (blocks : List Block) (dead : ∀ block ∈ blocks, ¬ block.Live) :
    liveReads start blocks = [] := by
  induction blocks generalizing start with
  | nil => rfl
  | cons block blocks ih =>
      obtain ⟨first, rest⟩ := List.forall_mem_cons.mp dead
      have later := ih (start + block.span) rest
      unfold liveReads at later ⊢
      rw [placed, List.filter_cons_of_neg (by simpa using first)]
      exact later

theorem liveReads_append (start : Nat) (first second : List Block) :
    liveReads start (first ++ second) = liveReads start first ++ liveReads (start + spanOf first) second := by
  simp [liveReads, placed_append]

theorem liveReads_cons (start : Nat) (block : Block) (blocks : List Block) (live : block.Live) :
    liveReads start (block :: blocks) = block.readAt start :: liveReads (start + block.span) blocks := by
  rw [liveReads, placed, List.filter_cons_of_pos (by simpa using live)]
  rfl

section
variable {maxN : Nat}

/-- A scan returns the live blocks up to the end of the blocks, when it ends well behind them. -/
theorem scanBlocks_ends {stop : Failure → DiskStorage → Prop} (tail : List UInt8) (least fuel : Nat)
    (few : least ≤ storageInitialReserved) :
    ∀ (back : List Block) (store : DiskStorage) (before : List UInt8),
      ScanAt store before (imageOf back ++ tail) → back.length < fuel →
      (∀ block ∈ back, getPoolSize block.pool ≤ maxN) →
      (∀ fuel, least ≤ fuel → (readBlocksLoop maxN fuel).Ends (store.seekTo (before.length + spanOf back))
        (fun result after => result = none ∧ ∃ pos, after = store.seekTo pos) stop) →
      (scanBlocks maxN fuel false).Ends store (fun reads _ => reads = liveReads before.length back) stop := by
  induction fuel with
  | zero =>
      intro back store before scan enough
      cases enough
  | succ fuel ih =>
      intro back store before scan enough fits ends
      have spans := spanOf_ge back
      have length := scan.length
      have reserved := scan.reserved
      rw [List.length_append, imageOf_length] at length
      have call := readBlocksLoop_ends back least tail store before (store.fd.bytes.length + 1) scan
        (by omega) ends
      unfold scanBlocks
      apply EStateM.Ends.bind (EStateM.ends_of_eq (readBlocksFromStart_next maxN)
        (call.mono (fun _ _ next => next) ?_))
      · intro result after next
        cases result with
        | none => exact EStateM.ends_of_ok rfl (liveReads_dead _ _ next.2).symm
        | some found =>
            obtain ⟨dead, block, rest, rfl, none, live, rfl, rfl⟩ := next
            -- the rest of the scan starts behind the block that this call has returned
            have part : imageOf (dead ++ block :: rest) ++ tail =
                (imageOf dead ++ block.image) ++ (imageOf rest ++ tail) := by simp
            rw [part] at scan
            have moved := scan.skip
            rw [List.length_append, imageOf_length, Block.image_length, ← Nat.add_assoc] at moved
            have place : (before ++ (imageOf dead ++ block.image)).length =
                before.length + spanOf dead + block.span := by
              simp [Nat.add_assoc]
            rw [List.length_append, List.length_cons] at enough
            have later := ih rest _ _ moved (by omega)
              (fun other member => fits other (by simp [member])) (by
                intro more some
                have end_pos : before.length + spanOf dead + block.span + spanOf rest =
                    before.length + spanOf (dead ++ block :: rest) := by
                  simp [Nat.add_assoc]
                rw [place, seekTo_seekTo, end_pos]
                exact ends more some)
            rw [place] at later
            apply EStateM.Ends.bind later
            rintro reads final rfl
            refine EStateM.ends_of_ok rfl ?_
            rw [liveReads_append, liveReads_dead _ _ none, liveReads_cons _ _ _ live, List.nil_append]
      · rintro failure after (⟨_, big, member, large⟩ | stopped)
        · exact absurd (fits big member) (Nat.not_le.mpr large)
        · exact stopped

theorem scanAll_eq (store : DiskStorage) :
    scanAll maxN store =
      scanBlocks maxN (store.fd.bytes.length + 1) false (store.seekTo storageInitialReserved) := by
  unfold scanAll
  rw [EStateM.bind_ok (EStateM.get_apply store), scanBlocks, scanBlocks, EStateM.bind_apply,
    EStateM.bind_apply, readBlocksFromStart_initial]

/-- A full scan of a store returns its live blocks. -/
theorem DiskFiles.scanAll {store : DiskStorage} {blocks : List Block} (files : DiskFiles store blocks)
    (fits : ∀ block ∈ blocks, getPoolSize block.pool ≤ maxN) :
    ∃ last, scanAll maxN store = .ok (liveReads storageInitialReserved blocks) last := by
  have scan := @DiskFiles.scanAt (store.seekTo storageInitialReserved) [] blocks
    (files.fd_moved storageInitialReserved) rfl
  rw [imageOf_nil, List.append_nil] at scan
  have head : (store.fd.bytes.take storageInitialReserved).length = storageInitialReserved := by
    rw [List.length_take, Nat.min_eq_left files.header.reserved]
  have whole := scan
  rw [← List.append_nil (imageOf blocks)] at whole
  have spans := spanOf_ge blocks
  have length := files.length
  have ends := @scanBlocks_ends maxN (fun _ _ => False) [] 0 (store.fd.bytes.length + 1) (by decide) blocks _ _
    whole (by omega) fits (by
      intro fuel _
      have last := whole.skip
      rw [imageOf_length] at last
      exact EStateM.ends_of_ok (readBlocksLoop_end last fuel) ⟨rfl, _, rfl⟩)
  obtain ⟨reads, last, run, rfl⟩ := ends.returns fun _ _ => id
  rw [seekTo_bytes, head] at run
  exact ⟨last, by rw [scanAll_eq]; exact run⟩

/-- A scan returns a block exactly when it is live. -/
theorem mem_liveReads (start : Nat) (blocks : List Block) (found : BlockRead) :
    found ∈ liveReads start blocks ↔ ∃ block, (placed start blocks).lookup found.offset = some block ∧
      block.Live ∧ found = block.readAt found.offset := by
  unfold liveReads
  rw [List.mem_map]
  constructor
  · rintro ⟨⟨offset, block⟩, member, rfl⟩
    obtain ⟨member, live⟩ := List.mem_filter.mp member
    exact ⟨block, lookup_of_mem_placed member, by simpa using live, rfl⟩
  · rintro ⟨block, there, live, same⟩
    refine ⟨(found.offset, block), List.mem_filter.mpr ⟨?_, by simpa using live⟩, same.symm⟩
    obtain ⟨front, back, rfl, place⟩ := (lookup_placed _ _ _ _).mp there
    rw [placed_append, place]
    exact List.mem_append_right _ List.mem_cons_self

/-- A scan goes through the file from its start to its end. -/
theorem liveReads_sorted (start : Nat) (blocks : List Block) :
    ((liveReads start blocks).map BlockRead.offset).Pairwise (· < ·) := by
  have all : ((placed start blocks).map Prod.fst).Pairwise (· < ·) := placed_sorted start blocks
  have same : (liveReads start blocks).map BlockRead.offset =
      ((placed start blocks).filter fun entry => entry.2.Live).map Prod.fst := by
    unfold liveReads
    rw [List.map_map]
    rfl
  rw [same]
  exact all.sublist (List.filter_sublist.map _)

/-- The blocks that a scan returns at one offset. -/
theorem liveReads_filter (start : Nat) (blocks : List Block) (offset : Nat) (block : Block)
    (found : (placed start blocks).lookup offset = some block) (live : block.Live) :
    (liveReads start blocks).filter (fun found => found.offset = offset) = [block.readAt offset] := by
  obtain ⟨front, back, rfl, rfl⟩ := (lookup_placed _ _ _ _).mp found
  have positive := block.span_pos
  have outside : ∀ (origin : Nat) (others : List Block),
      (start + spanOf front < origin ∨ origin + spanOf others ≤ start + spanOf front) →
      (liveReads origin others).filter (fun found => found.offset = start + spanOf front) = [] := by
    intro origin others beside
    rw [List.filter_eq_nil_iff]
    rintro found member
    simp only [liveReads, List.mem_map, List.mem_filter] at member
    obtain ⟨⟨place, other⟩, ⟨inside, _⟩, rfl⟩ := member
    have bounds := placed_bounds _ _ _ _ inside
    have wide := other.span_pos
    have apart : place ≠ start + spanOf front := by omega
    exact fun same => apart (of_decide_eq_true same)
  rw [liveReads_append, liveReads_cons _ _ _ live, List.filter_append, outside _ _ (Or.inr le_rfl),
    List.nil_append, List.filter_cons_of_pos (by simp [Block.readAt]), outside _ _ (Or.inl (by omega))]

end

end Menoetius
