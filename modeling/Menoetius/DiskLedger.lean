import Menoetius.DiskScan

/-
This file follows the callers of a store over whole runs: what they have written last to each block,
and which blocks they have released since the store was opened.
-/

namespace Menoetius
open LittleEndian FileImage

/-- The last write to a block in use. -/
structure Entry where
  status : BlockStatus
  pool : Nat
  payload : List UInt8

/-- The blocks in use by offset, and for each pool the blocks released since the store was opened, with
the last one first. -/
structure Ledger where
  used : Nat → Option Entry
  freed : Nat → List Nat

inductive DiskOp where
  | reserveAndWrite (status : BlockStatus) (buf : List UInt8)
  | write (offset : Nat) (status : BlockStatus) (buf : List UInt8)
  | release (offset : Nat)
  | reopen

namespace DiskOp

/-- The call itself. The result is the offset of the block that it is about. -/
def run : DiskOp → DiskM Nat
  | reserveAndWrite status buf => diskStorageReserveAndWriteBlock status buf
  | write offset status buf => do
      diskStorageWriteBlock offset status buf
      pure offset
  | release offset => do
      diskStorageReleaseBlock offset
      pure offset
  | reopen => do
      diskStorageOpen
      pure 0

/-- What a caller may ask for. -/
def Allowed (ledger : Ledger) : DiskOp → Prop
  | reserveAndWrite status buf =>
      (status = .valid ∨ status = .active) ∧ 2 ≤ buf.length ∧ poolOf buf.length < numDiskPools
  | write offset status buf =>
      (status = .valid ∨ status = .active) ∧ 2 ≤ buf.length ∧
        ∃ entry, ledger.used offset = some entry ∧ buf.length ≤ getPoolSize entry.pool
  | release offset => ∃ entry, ledger.used offset = some entry
  | reopen => True

end DiskOp

/-- The ledger after a call. -/
def Ledger.record (ledger : Ledger) (offset : Nat) : DiskOp → Ledger
  | .reserveAndWrite status buf =>
      { used := Function.update ledger.used offset (some ⟨status, poolOf buf.length, buf⟩)
        freed := Function.update ledger.freed (poolOf buf.length) (ledger.freed (poolOf buf.length)).tail }
  | .write _ status buf =>
      { ledger with
        used := Function.update ledger.used offset
          ((ledger.used offset).map fun entry => ⟨status, entry.pool, buf⟩) }
  | .release _ =>
      match ledger.used offset with
      | none => ledger
      | some entry =>
          { used := Function.update ledger.used offset none
            freed := Function.update ledger.freed entry.pool (offset :: ledger.freed entry.pool) }
  | .reopen => { ledger with freed := fun _ => [] }

/-- The runs of completed calls on a new path, with the ledger of the caller. -/
inductive DiskRun : DiskStorage → Ledger → Prop
  | created {after : DiskStorage} (run : diskStorageOpen newStore = .ok () after) :
      DiskRun after ⟨fun _ => none, fun _ => []⟩
  | called {store after : DiskStorage} {ledger : Ledger} {offset : Nat} (before : DiskRun store ledger)
      (op : DiskOp) (allowed : op.Allowed ledger) (run : op.run store = .ok offset after) :
      DiskRun after (ledger.record offset op)

/-- The block keeps the last write. -/
structure Entry.On (entry : Entry) (block : Block) : Prop where
  live : entry.status = .valid ∨ entry.status = .active
  status : block.status = entry.status
  pool : (block.pool : Nat) = entry.pool
  payload : entry.payload <+: block.payload

/-- The blocks of the store are those of the ledger. -/
structure LedgerHolds (store : DiskStorage) (blocks : List Block) (ledger : Ledger) : Prop extends
    DiskHolds store blocks where
  quiet : store.numBeforeCrash = none
  used : ∀ offset block, blockAt blocks offset = some block → block.status ≠ .empty →
    ∃ entry, ledger.used offset = some entry
  kept : ∀ offset entry, ledger.used offset = some entry →
    ∃ block, blockAt blocks offset = some block ∧ entry.On block
  chains : ∀ pool, FreeChain (blockAt blocks) pool (store.nextFreeBlock pool) (ledger.freed pool)

theorem Entry.On.used {entry : Entry} {block : Block} (on : entry.On block) : block.status ≠ .empty := by
  rw [on.status]
  rcases on.live with status | status <;> rw [status] <;> simp

theorem Entry.On.liveBlock {entry : Entry} {block : Block} (on : entry.On block) : block.Live := by
  unfold Block.Live
  rw [on.status]
  exact on.live

section
variable {content : Nat → Option Block} {pool head offset : Nat} {chain other : List Nat} {next after : Nat → Nat}

/-- The head of a free list determines the list. -/
theorem FreeChain.eq (zero : content 0 = none) (first : FreeChain content pool head chain)
    (second : FreeChain content pool head other) : chain = other := by
  induction first generalizing other with
  | nil =>
      cases second with
      | nil => rfl
      | cons _ block rest found empty same tail =>
          rw [zero] at found
          cases found
  | cons place block rest found empty same tail ih =>
      cases second with
      | nil =>
          rw [zero] at found
          cases found
      | cons _ again more found' _ _ tail' =>
          rw [found] at found'
          cases found'
          rw [ih tail']

theorem FreeChain.notMem (linked : FreeChain content pool head chain)
    (used : ∀ block, content offset = some block → block.status ≠ .empty ∨ (block.pool : Nat) ≠ pool) :
    offset ∉ chain := by
  intro member
  obtain ⟨block, found, empty, same⟩ := linked.empty member
  rcases used block found with busy | elsewhere
  · exact busy empty
  · exact elsewhere same

/-- The free lists after a block was reserved and written. -/
theorem FreeChain.taken {freed : Nat → List Nat} (zero : content 0 = none)
    (chains : ∀ pool, FreeChain content pool (next pool) (freed pool)) (distinct : (freed pool).Nodup)
    (taken : Taken content next pool offset after) (block : Block) (place : Nat) :
    FreeChain (Function.update content offset (some block)) place (after place)
      (Function.update freed pool (freed pool).tail place) := by
  cases taken with
  | grown empty fresh =>
      have none : freed pool = [] := by
        have linked := chains pool
        rw [empty] at linked
        exact linked.eq zero .nil
      have same : Function.update freed pool (freed pool).tail = freed := by
        rw [none, List.tail_nil, ← none, Function.update_eq_self]
      rw [same]
      refine (chains place).update _ block ((chains place).notMem ?_)
      intro old found
      rw [fresh] at found
      cases found
  | @reused old nonempty found =>
      have linked := chains pool
      by_cases here : place = pool
      · subst here
        rw [Function.update_self, Function.update_self]
        generalize next place = head at linked nonempty found ⊢
        generalize freed place = chain at linked distinct ⊢
        cases linked with
        | nil => exact absurd rfl nonempty
        | cons _ again rest found' _ _ tail =>
            rw [found] at found'
            cases found'
            exact tail.update _ block (List.nodup_cons.mp distinct).1
      · rw [Function.update_of_ne here, Function.update_of_ne here]
        refine (chains place).update _ block ((chains place).notMem ?_)
        intro again found'
        right
        have member : next pool ∈ freed pool := by
          generalize next pool = head at linked nonempty ⊢
          generalize freed pool = chain at linked ⊢
          cases linked with
          | nil => exact absurd rfl nonempty
          | cons _ _ rest _ _ _ tail => exact List.mem_cons_self
        obtain ⟨same, found'', _, pool_eq⟩ := linked.empty member
        rw [found'] at found''
        cases found''
        rw [pool_eq]
        exact fun equal => here equal.symm

/-- The free lists after a block in use was released. -/
theorem FreeChain.released {freed : Nat → List Nat}
    (chains : ∀ pool, FreeChain content pool (next pool) (freed pool))
    (used : ∀ block, content offset = some block → block.status ≠ .empty) {new : Block}
    (empty : new.status = .empty) (same : (new.pool : Nat) = pool) (link : valueOf (new.payload.take 8) = next pool)
    (place : Nat) :
    FreeChain (Function.update content offset (some new)) place (Function.update next pool offset place)
      (Function.update freed pool (offset :: freed pool) place) := by
  have kept : ∀ place, FreeChain (Function.update content offset (some new)) place (next place) (freed place) :=
    fun place => (chains place).update _ new ((chains place).notMem fun block found => Or.inl (used block found))
  by_cases here : place = pool
  · subst here
    rw [Function.update_self, Function.update_self]
    refine .cons offset new _ (Function.update_self _ _ _) empty same ?_
    rw [link]
    exact kept place
  · rw [Function.update_of_ne here, Function.update_of_ne here]
    exact kept place

end

section
variable {store after : DiskStorage} {blocks later : List Block} {ledger : Ledger} {offset : Nat}

theorem LedgerHolds.nodup (holds : LedgerHolds store blocks ledger) (pool : Nat) : (ledger.freed pool).Nodup := by
  obtain ⟨chain, linked, distinct, _⟩ := holds.free pool
  rw [(holds.chains pool).eq (blockAt_zero blocks) linked]
  exact distinct

/-- A block that was written, and all others as they were. -/
theorem LedgerHolds.wrote (holds : LedgerHolds store blocks ledger) {entry : Entry} {block : Block}
    (content : blockAt later = Function.update (blockAt blocks) offset (some block)) (on : entry.On block) :
    (∀ place other, blockAt later place = some other → other.status ≠ .empty →
        ∃ old, Function.update ledger.used offset (some entry) place = some old) ∧
      ∀ place old, Function.update ledger.used offset (some entry) place = some old →
        ∃ other, blockAt later place = some other ∧ old.On other := by
  rw [content]
  constructor
  · intro place other found busy
    by_cases here : place = offset
    · exact ⟨entry, by rw [here, Function.update_self]⟩
    · rw [Function.update_of_ne here] at found ⊢
      exact holds.used place other found busy
  · intro place old written
    by_cases here : place = offset
    · subst here
      rw [Function.update_self] at written ⊢
      rw [← Option.some.inj written]
      exact ⟨block, rfl, on⟩
    · rw [Function.update_of_ne here] at written ⊢
      exact holds.kept place old written

/-- One call keeps the ledger and changes no other block. -/
theorem LedgerHolds.called (holds : LedgerHolds store blocks ledger) (op : DiskOp) (allowed : op.Allowed ledger) :
    op.run.Ends store
      (fun offset after => ∃ later, LedgerHolds after later (ledger.record offset op) ∧
        ∀ place, place ≠ offset → blockAt later place = blockAt blocks place)
      fun failure _ => DiskFull failure := by
  cases op with
  | reserveAndWrite status buf =>
      obtain ⟨live, more, known⟩ := allowed
      have small : buf.length ≤ 2 ^ 26 := by
        by_contra large
        exact absurd (poolOf_ge _ (Nat.lt_of_not_le large)) (Nat.not_le.mpr known)
      apply (holds.reserveAndWrite holds.quiet status live buf more small).mono
      · rintro offset after ⟨later, block, held, calm, added, taken⟩
        have on : (Entry.mk status (poolOf buf.length) buf).On block :=
          ⟨live, added.status, added.pool, by obtain ⟨rest, payload⟩ := added.payload; exact ⟨rest, payload.symm⟩⟩
        obtain ⟨used, kept⟩ := holds.wrote added.added on
        refine ⟨later, ⟨held, calm, used, kept, ?_⟩, ?_⟩
        · rw [added.added]
          exact FreeChain.taken (blockAt_zero blocks) holds.chains (holds.nodup _) taken block
        · intro place elsewhere
          rw [added.added, Function.update_of_ne elsewhere]
      · exact fun _ _ full => full
  | write offset status buf =>
      obtain ⟨live, _, entry, written, fits⟩ := allowed
      obtain ⟨block, found, on⟩ := holds.kept offset entry written
      rw [← on.pool] at fits
      obtain ⟨after, later, run, held, calm, content, next⟩ :=
        holds.writeBlock holds.quiet found on.used status live buf fits
      have again : (Entry.mk status entry.pool buf).On (block.overwrite status buf fits) :=
        ⟨live, rfl, on.pool, List.prefix_append _ _⟩
      obtain ⟨used, kept⟩ := holds.wrote content again
      refine EStateM.ends_of_ok (EStateM.bind_ok run _) ⟨later, ⟨held, calm, ?_, ?_, ?_⟩, ?_⟩
      · rw [Ledger.record, written]
        exact used
      · rw [Ledger.record, written]
        exact kept
      · intro pool
        rw [next, content]
        refine (holds.chains pool).update _ _ ((holds.chains pool).notMem ?_)
        intro old found'
        rw [found] at found'
        rw [← Option.some.inj found']
        exact Or.inl on.used
      · intro place elsewhere
        rw [content, Function.update_of_ne elsewhere]
  | release offset =>
      obtain ⟨entry, written⟩ := allowed
      obtain ⟨block, found, on⟩ := holds.kept offset entry written
      obtain ⟨after, later, empty, run, held, calm, content, status, pool, next, link⟩ :=
        holds.releaseBlock holds.quiet found on.used
      refine EStateM.ends_of_ok (EStateM.bind_ok run _) ⟨later, ?_, ?_⟩
      · rw [Ledger.record, written]
        refine ⟨held, calm, ?_, ?_, ?_⟩
        · intro place other present busy
          dsimp only
          rw [content] at present
          by_cases here : place = offset
          · subst here
            rw [Function.update_self] at present
            rw [← Option.some.inj present] at busy
            exact absurd status busy
          · rw [Function.update_of_ne here] at present ⊢
            exact holds.used place other present busy
        · intro place old present
          dsimp only at present
          rw [content]
          by_cases here : place = offset
          · subst here
            rw [Function.update_self] at present
            cases present
          · rw [Function.update_of_ne here] at present ⊢
            exact holds.kept place old present
        · dsimp only
          rw [next, content, ← on.pool]
          refine FreeChain.released holds.chains ?_ status (congrArg Fin.val pool) link
          intro other present
          rw [found] at present
          rw [← Option.some.inj present]
          exact on.used
      · intro place elsewhere
        rw [content, Function.update_of_ne elsewhere]
  | reopen =>
      obtain ⟨after, run, held, calm, next⟩ := holds.toDiskFiles.reopen holds.quiet
      refine EStateM.ends_of_ok (EStateM.bind_ok run _) ⟨blocks, ⟨held, calm, holds.used, holds.kept, ?_⟩, ?_⟩
      · intro pool
        rw [next]
        exact .nil
      · exact fun _ _ => rfl

/-- Every run keeps the ledger. -/
theorem DiskRun.holds (run : DiskRun store ledger) : ∃ blocks, LedgerHolds store blocks ledger := by
  induction run with
  | created run =>
      rw [newStore_open] at run
      cases run
      refine ⟨[], createdStore_holds, rfl, ?_, ?_, fun _ => .nil⟩
      · intro offset block found
        cases found
      · intro offset entry written
        cases written
  | called before op allowed run ih =>
      obtain ⟨blocks, holds⟩ := ih
      obtain ⟨later, held, _⟩ := (holds.called op allowed).of_ok run
      exact ⟨later, held⟩

/-- The result of a read: the last status, and the last payload at the front of the block. -/
structure Entry.Read (entry : Entry) (status : UInt8) (buf : List UInt8) : Prop where
  status : status = entry.status.code
  payload : entry.payload <+: buf
  size : buf.length = getPoolSize entry.pool

theorem Entry.On.read {entry : Entry} {block : Block} (on : entry.On block) :
    entry.Read block.status.code block.payload :=
  ⟨by rw [on.status], on.payload, by rw [block.whole, on.pool]⟩

/-- What the store guarantees to the callers of a ledger. -/
structure Isolated (store : DiskStorage) (ledger : Ledger) : Prop where
  tiled : store.fd.bytes.drop storageInitialReserved = imageOf (blocksOf store.fd.bytes) ∧
    store.eofOffset = storageInitialReserved + spanOf (blocksOf store.fd.bytes) ∧
    ∀ block ∈ blocksOf store.fd.bytes, block.image.length = 2 + 2 ^ ((block.pool : Nat) + 7)
  inUse : ∀ offset, (∃ block, InUse store offset block) ↔ ∃ entry, ledger.used offset = some entry
  free : ∀ pool, FreeChain (blockAt (blocksOf store.fd.bytes)) pool (store.nextFreeBlock pool)
      (ledger.freed pool) ∧ (ledger.freed pool).Nodup ∧
    ∀ offset ∈ ledger.freed pool, ledger.used offset = none
  others : ∀ op : DiskOp, op.Allowed ledger → op.run.Ends store
    (fun offset after => ∀ place entry, ledger.used place = some entry → place ≠ offset →
      readAt after.fd.bytes place (2 + getPoolSize entry.pool) =
        readAt store.fd.bytes place (2 + getPoolSize entry.pool))
    fun failure _ => DiskFull failure
  reads : ∀ maxN, (∀ block ∈ blocksOf store.fd.bytes, getPoolSize block.pool ≤ maxN) →
    ∀ offset entry, ledger.used offset = some entry → ∃ status buf last,
      diskStorageReadBlock offset maxN store = .ok (status, buf) last ∧ entry.Read status buf
  scan : ∀ maxN, (∀ block ∈ blocksOf store.fd.bytes, getPoolSize block.pool ≤ maxN) →
    ∃ found last, scanAll maxN store = .ok found last ∧ (found.map BlockRead.offset).Pairwise (· < ·) ∧
      (∀ offset, offset ∈ found.map BlockRead.offset ↔ ∃ entry, ledger.used offset = some entry) ∧
      ∀ block ∈ found, ∃ entry, ledger.used block.offset = some entry ∧ entry.Read block.status block.buf

theorem DiskFiles.readAt_block (files : DiskFiles store blocks) {block : Block}
    (found : blockAt blocks offset = some block) : readAt store.fd.bytes offset block.span = block.image := by
  obtain ⟨front, back, split, rfl⟩ := (blockAt_eq_some _ _ _).mp found
  obtain ⟨bytes, length⟩ := files.split split
  rw [bytes, readAt, List.drop_left' length, List.take_left' block.image_length]

/-- Every completed run of calls leaves a store that is isolated. -/
theorem diskRun_isolated (run : DiskRun store ledger) : Isolated store ledger := by
  obtain ⟨blocks, holds⟩ := run.holds
  have parsed := holds.toDiskFiles.blocksOf
  have live : ∀ block offset, blockAt blocks offset = some block → block.Live →
      ∃ entry, ledger.used offset = some entry ∧ entry.On block := by
    intro block offset found live
    obtain ⟨entry, written⟩ := holds.used offset block found (by
      rcases live with status | status <;> rw [status] <;> simp)
    obtain ⟨again, found', on⟩ := holds.kept offset entry written
    rw [found] at found'
    rw [← Option.some.inj found'] at on
    exact ⟨entry, written, on⟩
  refine
    { tiled := ?_
      inUse := ?_
      free := ?_
      others := ?_
      reads := ?_
      scan := ?_ }
  · rw [parsed]
    refine ⟨holds.body, holds.eofOffset.trans holds.toDiskFiles.length, ?_⟩
    intro block _
    rw [Block.image_length]
    rfl
  · intro offset
    unfold InUse
    rw [parsed]
    constructor
    · rintro ⟨block, found, busy⟩
      exact holds.used offset block found busy
    · rintro ⟨entry, written⟩
      obtain ⟨block, found, on⟩ := holds.kept offset entry written
      exact ⟨block, found, on.used⟩
  · intro pool
    rw [parsed]
    refine ⟨holds.chains pool, holds.nodup pool, ?_⟩
    intro offset member
    obtain ⟨block, found, empty, _⟩ := (holds.chains pool).empty member
    cases written : ledger.used offset with
    | none => rfl
    | some entry =>
        obtain ⟨again, found', on⟩ := holds.kept offset entry written
        rw [found] at found'
        rw [← Option.some.inj found'] at on
        exact absurd empty on.used
  · intro op allowed
    apply (holds.called op allowed).mono
    · rintro offset after ⟨later, held, same⟩ place entry written elsewhere
      obtain ⟨block, found, on⟩ := holds.kept place entry written
      have span : 2 + getPoolSize entry.pool = block.span := by rw [← on.pool]; rfl
      rw [span, holds.toDiskFiles.readAt_block found,
        held.toDiskFiles.readAt_block ((same place elsewhere).trans found)]
    · exact fun _ _ full => full
  · intro maxN fits offset entry written
    rw [parsed] at fits
    obtain ⟨block, found, on⟩ := holds.kept offset entry written
    obtain ⟨front, back, split, rfl⟩ := (blockAt_eq_some _ _ _).mp found
    obtain ⟨pos, read⟩ := readBlock_run holds.toDiskFiles split on.used maxN (fits block (by rw [split]; simp))
    exact ⟨_, _, _, read, on.read⟩
  · intro maxN fits
    rw [parsed] at fits
    obtain ⟨last, scanned⟩ := holds.toDiskFiles.scanAll fits
    refine ⟨_, last, scanned, liveReads_sorted _ _, ?_, ?_⟩
    · intro offset
      rw [List.mem_map]
      constructor
      · rintro ⟨found, member, rfl⟩
        obtain ⟨block, there, alive, _⟩ := (mem_liveReads _ _ _).mp member
        obtain ⟨entry, written, _⟩ := live block found.offset there alive
        exact ⟨entry, written⟩
      · rintro ⟨entry, written⟩
        obtain ⟨block, found, on⟩ := holds.kept offset entry written
        exact ⟨block.readAt offset, (mem_liveReads _ _ _).mpr ⟨block, found, on.liveBlock, rfl⟩, rfl⟩
    · intro found member
      obtain ⟨block, there, alive, same⟩ := (mem_liveReads _ _ _).mp member
      obtain ⟨entry, written, on⟩ := live block found.offset there alive
      rw [same]
      exact ⟨entry, written, on.read⟩

set_option maxRecDepth 8000 in
/-- Of two blocks the first is released. It is the free one then, and the other one stays in use. -/
theorem diskRun_isolated_reserved :
    ∃ store ledger, DiskRun store ledger ∧ ledger.used 64 = none ∧ ledger.freed 0 = [64] ∧
      ledger.used 194 = some ⟨.valid, 0, [9, 9]⟩ ∧ Isolated store ledger := by
  obtain ⟨first, one⟩ : ∃ first, (DiskOp.reserveAndWrite .valid [7, 7]).run createdStore = .ok 64 first :=
    ⟨_, rfl⟩
  obtain ⟨second, two⟩ : ∃ second, (DiskOp.reserveAndWrite .valid [9, 9]).run first = .ok 194 second := by
    cases one
    exact ⟨_, rfl⟩
  obtain ⟨last, released⟩ : ∃ last, (DiskOp.release 64).run second = .ok 64 last := by
    cases one
    cases two
    exact ⟨_, rfl⟩
  have run := (((DiskRun.created newStore_open).called (.reserveAndWrite .valid [7, 7])
    ⟨Or.inl rfl, by decide, by decide⟩ one).called (.reserveAndWrite .valid [9, 9])
    ⟨Or.inl rfl, by decide, by decide⟩ two).called (.release 64) ⟨_, rfl⟩ released
  exact ⟨last, _, run, rfl, rfl, rfl, diskRun_isolated run⟩

/-- A reservation takes the block of its pool that was released last since the store was opened, and
the file grows only when there is none. -/
theorem reserveBlock_reuses (run : DiskRun store ledger) (n : Nat) (more : 2 ≤ n)
    (known : poolOf n < numDiskPools) :
    (∀ offset rest, ledger.freed (poolOf n) = offset :: rest →
      (∃ block, blockAt (blocksOf store.fd.bytes) offset = some block ∧ block.status = .empty ∧
        block.pool = poolOf n) ∧
      ∃ after, diskStorageReserveBlock n store = .ok offset after ∧ after.eofOffset = store.eofOffset ∧
        after.fd.bytes = store.fd.bytes) ∧
    ∀ offset after, diskStorageReserveBlock n store = .ok offset after →
      after.eofOffset ≠ store.eofOffset → ledger.freed (poolOf n) = [] := by
  obtain ⟨blocks, holds⟩ := run.holds
  have small : n ≤ 2 ^ 26 := by
    by_contra large
    exact absurd (poolOf_ge _ (Nat.lt_of_not_le large)) (Nat.not_le.mpr known)
  have reused : ∀ offset rest, ledger.freed (poolOf n) = offset :: rest →
      (∃ block, blockAt (blocksOf store.fd.bytes) offset = some block ∧ block.status = .empty ∧
        block.pool = poolOf n) ∧
      ∃ after, diskStorageReserveBlock n store = .ok offset after ∧ after.eofOffset = store.eofOffset ∧
        after.fd.bytes = store.fd.bytes := by
    intro offset rest pushed
    have linked := holds.chains (poolOf n)
    rw [pushed] at linked
    obtain ⟨block, found, empty, pool⟩ := linked.empty List.mem_cons_self
    have head : store.nextFreeBlock (poolOf n) = offset := by
      generalize store.nextFreeBlock (poolOf n) = place at linked ⊢
      cases linked with
      | cons _ _ _ _ _ _ _ => rfl
    have nonzero : store.nextFreeBlock (poolOf n) ≠ 0 := by
      rw [head]
      rintro rfl
      rw [blockAt_zero] at found
      cases found
    obtain ⟨front, other, back, after, _, _, _, place, taken, _, main, _, eof, _⟩ :=
      reserveBlock_free holds.toDiskHolds n more small nonzero
    rw [holds.toDiskFiles.blocksOf]
    rw [head] at place
    exact ⟨⟨block, found, empty, pool⟩, after, by rw [place]; exact taken, eof, main⟩
  refine ⟨reused, ?_⟩
  intro offset after taken grown
  cases pushed : ledger.freed (poolOf n) with
  | nil => rfl
  | cons head rest =>
      obtain ⟨_, again, taken', eof, _⟩ := reused head rest pushed
      rw [taken] at taken'
      cases taken'
      exact absurd eof grown

end

set_option maxRecDepth 8000 in
/-- The runs that reserve one block of the smallest pool and release it. -/
theorem diskRun_released :
    ∃ store ledger, DiskRun store ledger ∧ ledger.freed 0 = [64] ∧ store.eofOffset = 194 ∧
      ∃ after, diskStorageOpen store = .ok () after ∧ after.eofOffset = 194 ∧
        (∃ block, blockAt (blocksOf after.fd.bytes) 64 = some block ∧ block.status = .empty ∧ (block.pool : Nat) = 0) ∧
        ∃ last, diskStorageReserveBlock 2 after = .ok 194 last ∧ last.eofOffset = 324 := by
  obtain ⟨store, first, next⟩ : ∃ store, (DiskOp.reserveAndWrite .valid [7, 7]).run createdStore = .ok 64 store ∧
      ∃ after, (DiskOp.release 64).run store = .ok 64 after ∧ after.eofOffset = 194 ∧
      ∃ again, diskStorageOpen after = .ok () again ∧ again.eofOffset = 194 ∧
        (∃ block, blockAt (blocksOf again.fd.bytes) 64 = some block ∧ block.status = .empty ∧ (block.pool : Nat) = 0) ∧
        ∃ last, diskStorageReserveBlock 2 again = .ok 194 last ∧ last.eofOffset = 324 :=
    ⟨_, rfl, _, rfl, rfl, _, rfl, rfl, ⟨_, rfl, rfl, rfl⟩, _, rfl, rfl⟩
  obtain ⟨after, second, eof, rest⟩ := next
  have run := (DiskRun.created newStore_open).called (.reserveAndWrite .valid [7, 7])
    ⟨Or.inl rfl, by decide, by decide⟩ first
  exact ⟨after, _, run.called (.release 64) ⟨_, rfl⟩ second, rfl, eof, rest⟩

/-- A released block of the smallest pool is taken again. -/
theorem reserveBlock_reuses_released :
    ∃ store ledger after, DiskRun store ledger ∧ diskStorageReserveBlock 2 store = .ok 64 after ∧
      after.eofOffset = store.eofOffset := by
  obtain ⟨store, ledger, run, freed, _⟩ := diskRun_released
  obtain ⟨_, after, taken, eof, _⟩ := (reserveBlock_reuses run 2 le_rfl (by decide)).1 64 [] freed
  exact ⟨store, ledger, after, run, taken, eof⟩

/-- A block released before the store was opened is not taken: the file grows beside it. -/
theorem reserveBlock_reopened_grows :
    ∃ store ledger, DiskRun store ledger ∧
      (∃ block, blockAt (blocksOf store.fd.bytes) 64 = some block ∧ block.status = .empty ∧
        block.pool = poolOf 2) ∧
      ∃ after, diskStorageReserveBlock 2 store = .ok 194 after ∧ after.eofOffset ≠ store.eofOffset := by
  obtain ⟨store, ledger, run, _, _, after, reopened, eof, empty, last, taken, grown⟩ := diskRun_released
  have again : DiskOp.reopen.run store = .ok 0 after := EStateM.bind_ok reopened _
  refine ⟨after, _, run.called .reopen trivial again, empty, last, taken, ?_⟩
  rw [eof, grown]
  decide

end Menoetius
