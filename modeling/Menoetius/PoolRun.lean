import Menoetius.PoolHolds

/-
This file runs the functions of the pool allocator from a state that meets its invariant.
-/

namespace Menoetius
open ChunkMemory FileImage LittleEndian

section Chunk
variable {heap : Heap} {q : Word} {bytes : List UInt8}

theorem chunkWord_run (here : heap.chunks q = some bytes) {start : Nat} (inside : start + 8 ≤ bytes.length) :
    chunkWord q start heap = .ok (BitVec.ofNat 64 (wordAt bytes start)) heap := by
  simp only [chunkWord, EStateM.bind_apply, EStateM.get_apply, here, inside, if_true, EStateM.pure_apply]

theorem setChunkBytes_run (here : heap.chunks q = some bytes) {start : Nat} {data : List UInt8}
    (inside : start + data.length ≤ bytes.length) :
    setChunkBytes q start data heap =
      .ok () ⟨Function.update heap.chunks q (some (writeAt bytes start data)), heap.pools⟩ := by
  simp only [setChunkBytes, EStateM.bind_apply, EStateM.get_apply, here, inside, if_true, EStateM.modify_apply]

theorem setChunkWord_run (here : heap.chunks q = some bytes) {start : Nat} (inside : start + 8 ≤ bytes.length)
    (word : Word) :
    setChunkWord q start word heap =
      .ok () ⟨Function.update heap.chunks q (some (putWordAt bytes start word.toNat)), heap.pools⟩ :=
  setChunkBytes_run here (by rwa [bytesOf_length])

/-- The number of a new chunk is stored in front of its junk. -/
theorem newChunk_run (heap : Heap) (choice : Choice) {n i : Nat} (room : 8 ≤ n) (small : i < 2 ^ 64) :
    newChunk choice n i heap = .ok (choice.address + 8)
      ⟨Function.update heap.chunks choice.address (some (putWordAt (choice.bytes n) 0 i)), heap.pools⟩ := by
  have length : (choice.bytes n).length = n := by simp [Choice.bytes]
  have taken : mallocChunk choice n heap = .ok choice.address
      ⟨Function.update heap.chunks choice.address (some (choice.bytes n)), heap.pools⟩ := rfl
  have stored := @setChunkWord_run
    ⟨Function.update heap.chunks choice.address (some (choice.bytes n)), heap.pools⟩ choice.address
    (choice.bytes n) (Function.update_self _ _ _) 0 (by rw [length]; omega) (BitVec.ofNat 64 i)
  rw [newChunk, EStateM.bind_ok taken, EStateM.bind_ok stored, BitVec.toNat_ofNat, Nat.mod_eq_of_lt small,
    Function.update_idem]
  rfl

theorem freeChunk_run (here : heap.chunks q = some bytes) :
    freeChunk q heap = .ok () ⟨Function.update heap.chunks q none, heap.pools⟩ := by
  simp only [freeChunk, EStateM.bind_apply, EStateM.get_apply, here, EStateM.modify_apply]

/-- The bytes that `realloc` keeps stand in front of junk. -/
theorem reallocChunk_run (here : heap.chunks q = some bytes) (choice : Choice) (n : Nat) :
    reallocChunk choice q n heap = .ok choice.address
      ⟨Function.update (Function.update heap.chunks q none) choice.address
        (some ((bytes ++ choice.bytes n).take n)), heap.pools⟩ := by
  simp only [reallocChunk, EStateM.bind_apply, EStateM.get_apply, here, freeChunk_run here,
    EStateM.modify_apply, EStateM.pure_apply]

/-- The pool number is small enough for an `int`. -/
theorem chunkPool_run {p : Word} {n i : Nat} (here : heap.chunks (p - 8) = some bytes) (serves : ServesRequest bytes n)
    (number : wordAt bytes 0 = i) : chunkPool p heap = .ok (i : Int) heap := by
  have small : i ≤ noPool := by
    rcases serves.2 with unpooled | ⟨j, pool, pooled⟩
    · omega
    · rw [pooled.2] at number
      have := pool.trans_le (by decide : numPools ≤ noPool)
      omega
  have int : ((BitVec.ofNat 64 i).setWidth 32).toInt = i := by
    have bound : (noPool : Nat) = 65535 := rfl
    rw [BitVec.toInt_eq_toNat_of_lt] <;> simp <;> omega
  have inside := serves.1
  rw [chunkPool, EStateM.bind_ok (chunkWord_run here (by omega)), number, int]
  rfl

end Chunk

/-- A request has room in a chunk of its power of two. -/
theorem requestPow_fits {n : Nat} (small : n < 2 ^ 40) :
    n + 8 ≤ 2 ^ requestPow n ∧ minSizePow ≤ requestPow n ∧ requestPow n ≤ 41 := by
  obtain ⟨size, rounded, lower, covers, upper⟩ :
      ∃ size, requestPow n = 64 - builtinClzllNat size ∧ 31 ≤ size ∧ n + 8 ≤ size + 1 ∧ size < 2 ^ 41 := by
    refine ⟨(if n + 8 < minSize then minSize else n + 8) - 1, rfl, ?_⟩
    have least : minSize = 32 := rfl
    split <;> omega
  have nonzero : size ≠ 0 := by omega
  have high : size.log2 < 41 := (Nat.log2_lt nonzero).mpr upper
  have low : 4 ≤ size.log2 := (Nat.le_log2 nonzero).mpr (by omega)
  have pow : requestPow n = size.log2 + 1 := by
    rw [rounded, builtinClzllNat]
    omega
  have above : size < 2 ^ (size.log2 + 1) := Nat.lt_log2_self
  have least : minSizePow = 5 := rfl
  rw [pow]
  omega

section Run
variable {heap : Heap} {live : List Held} {frees : Nat → List Word}

/-- What a call has done to the memory, when it has handed out a pointer. Chunks that it did not free are
as before, and a chunk that existed comes from the pool of the request. -/
structure HandsOut (heap heap' : Heap) (live : List Held) (q : Word) (n : Nat) : Prop where
  holds : ∃ frees', heap'.Holds (⟨q, n⟩ :: live) frees'
  kept : ∀ c bytes, heap.chunks c = some bytes → heap'.chunks c = some bytes
  reused : ∀ bytes, heap.chunks (q - 8) = some bytes → wordAt bytes 0 = requestPow n - minSizePow

/-- A new chunk meets the invariant. -/
theorem newChunk_handsOut (holds : heap.Holds live frees) {choice : Choice} {n size i : Nat}
    (unused : heap.chunks choice.address = none) (nonnull : choice.address + 8 ≠ 0)
    (serves : ServesRequest (putWordAt (choice.bytes size) 0 i) n) :
    HandsOut heap ⟨Function.update heap.chunks choice.address (some (putWordAt (choice.bytes size) 0 i)),
      heap.pools⟩ live (choice.address + 8) n := by
  refine ⟨⟨frees, holds.fresh unused nonnull serves⟩, ?_, ?_⟩
  · intro c bytes here
    have different : c ≠ choice.address := by
      rintro rfl
      rw [unused] at here
      cases here
    exact (Function.update_of_ne different _ _).trans here
  · intro bytes here
    rw [add_sub_eight, unused] at here
    cases here

/-- A request is served by a new chunk or by the first one of its pool. -/
theorem myMalloc_run (holds : heap.Holds live frees) {choice : Choice} {n : Nat} (small : n < 2 ^ 40)
    (unused : heap.chunks choice.address = none) (nonnull : choice.address + 8 ≠ 0) :
    ∃ q heap', myMalloc choice n heap = .ok q heap' ∧ HandsOut heap heap' live q n := by
  obtain ⟨fits, least, most⟩ := requestPow_fits small
  have wide : 32 ≤ 2 ^ requestPow n := Nat.pow_le_pow_right (by decide : 0 < 2) least
  have length : (choice.bytes (2 ^ requestPow n)).length = 2 ^ requestPow n := by simp [Choice.bytes]
  have served : ∀ i, i < 2 ^ 64 → (i = noPool ∨ i < numPools ∧ minSizePow + i = requestPow n) →
      ServesRequest (putWordAt (choice.bytes (2 ^ requestPow n)) 0 i) n := by
    intro i word number
    have inside : 0 + 8 ≤ (choice.bytes (2 ^ requestPow n)).length := by omega
    refine ⟨by rw [putWordAt_length inside]; omega, ?_⟩
    rw [wordAt_putWordAt inside word]
    refine number.imp_right fun ⟨pool, same⟩ => ⟨i, pool, ?_, wordAt_putWordAt inside word⟩
    rw [putWordAt_length inside, length, same]
  by_cases large : requestPow n - minSizePow ≥ numPools
  · have run := newChunk_run heap choice (show 8 ≤ 2 ^ requestPow n by omega) (by decide : noPool < 2 ^ 64)
    refine ⟨_, _, ?_, newChunk_handsOut holds unused nonnull (served noPool (by decide) (Or.inl rfl))⟩
    rw [myMalloc]
    simp only [large, if_true]
    exact run
  · have pool : requestPow n - minSizePow < numPools := Nat.not_le.mp large
    have same : minSizePow + (requestPow n - minSizePow) = requestPow n := by omega
    by_cases empty : heap.pools (requestPow n - minSizePow) = 0
    · have number : requestPow n - minSizePow < 2 ^ 64 := pool.trans (by decide)
      have run := newChunk_run heap choice (show 8 ≤ 2 ^ requestPow n by omega) number
      refine ⟨_, _, ?_, newChunk_handsOut holds unused nonnull (served _ number (Or.inr ⟨pool, same⟩))⟩
      rw [myMalloc]
      simp only [large, if_false]
      rw [EStateM.bind_ok (EStateM.get_apply heap)]
      simp only [empty, ne_eq, not_true_eq_false, if_false]
      exact run
    · obtain ⟨next, rest, linked, split, after⟩ := @Heap.Holds.reuse heap live frees holds
        (requestPow n - minSizePow) pool empty n (by rw [same]; omega)
      obtain ⟨bytes, here, pooled⟩ := holds.free _ pool _ (by rw [split]; exact List.mem_cons_self)
      have inside : 8 + 8 ≤ bytes.length := by
        rw [pooled.1, same]
        omega
      rw [linkIn, here, Option.map_some, Option.some.injEq] at linked
      refine ⟨_, _, ?_, ⟨_, after⟩, fun c old kept => kept, fun old there => ?_⟩
      · rw [myMalloc]
        simp only [large, if_false]
        rw [EStateM.bind_ok (EStateM.get_apply heap)]
        simp only [empty, ne_eq, not_false_eq_true, if_true]
        rw [EStateM.bind_ok (chunkWord_run here inside), linked]
        rfl
      · rw [here] at there
        obtain rfl := Option.some.inj there
        exact pooled.2

/-- A pointer of the caller is taken back, with its chunk or into its pool. -/
theorem myFree_run (holds : heap.Holds live frees) {a : Held} (held : a ∈ live) :
    ∃ heap' frees', myFree a.p heap = .ok () heap' ∧ heap'.Holds (without live a.p) frees' ∧
      ∀ c bytes bytes', heap.chunks c = some bytes → heap'.chunks c = some bytes' →
        wordAt bytes' 0 = wordAt bytes 0 := by
  obtain ⟨-, bytes, here, serves⟩ := holds.held a held
  rcases serves.2 with unpooled | ⟨i, pool, pooled⟩
  · refine ⟨_, frees, ?_, holds.release held, ?_⟩
    · rw [myFree, EStateM.bind_ok (chunkPool_run here serves unpooled)]
      simp only [show ((noPool : Nat) : Int) ≥ numPools by decide, if_true]
      rw [require_bind rfl, freeChunk_run here]
    · intro c old new before after
      by_cases same : c = a.p - 8
      · subst same
        simp at after
      · simp only [Function.update_of_ne same, before, Option.some.injEq] at after
        rw [after]
  · have room : 8 + 8 ≤ bytes.length := by
      rw [pooled.1]
      exact (by decide : 16 ≤ 2 ^ minSizePow).trans (Nat.pow_le_pow_right (by decide) (Nat.le_add_right _ _))
    refine ⟨_, _, ?_, holds.retire held here pool pooled, ?_⟩
    · rw [myFree, EStateM.bind_ok (chunkPool_run here serves pooled.2)]
      have small : ¬ ((i : Int) ≥ numPools) := by omega
      simp only [small, if_false]
      rw [EStateM.bind_ok (EStateM.get_apply heap), Int.toNat_natCast,
        EStateM.bind_ok (setChunkWord_run here room _)]
      rfl
    · intro c old new before after
      by_cases same : c = a.p - 8
      · subst same
        rw [here] at before
        obtain rfl := Option.some.inj before
        simp only [Function.update_self, Option.some.injEq] at after
        subst after
        exact wordAt_writeAt_before (by decide) (by rwa [bytesOf_length])
      · simp only [Function.update_of_ne same, before, Option.some.injEq] at after
        rw [after]

/-- A pointer outside of the pools is handed to `realloc`. -/
theorem myRealloc_run (holds : heap.Holds live frees) {a : Held} (held : a ∈ live) {bytes : List UInt8}
    (here : heap.chunks (a.p - 8) = some bytes) (unpooled : wordAt bytes 0 = noPool) {choice : Choice} (n : Nat)
    (unused : choice.address = a.p - 8 ∨ heap.chunks choice.address = none) (nonnull : choice.address + 8 ≠ 0) :
    ∃ frees', myRealloc choice a.p n heap = .ok (choice.address + 8)
        ⟨Function.update (Function.update heap.chunks (a.p - 8) none) choice.address
          (some ((bytes ++ choice.bytes (n + 8)).take (n + 8))), heap.pools⟩ ∧
      Heap.Holds ⟨Function.update (Function.update heap.chunks (a.p - 8) none) choice.address
          (some ((bytes ++ choice.bytes (n + 8)).take (n + 8))), heap.pools⟩
        (⟨choice.address + 8, n⟩ :: without live a.p) frees' := by
  obtain ⟨-, other, there, serves⟩ := holds.held a held
  rw [here] at there
  obtain rfl := Option.some.inj there
  have inside := serves.1
  refine ⟨frees, ?_, ?_⟩
  · rw [myRealloc, EStateM.bind_ok (chunkPool_run here serves unpooled)]
    simp only [show ((noPool : Nat) : Int) ≥ numPools by decide, if_true]
    rw [EStateM.bind_ok (reallocChunk_run here choice (n + 8))]
    rfl
  · apply (holds.release held).fresh
    · by_cases same : choice.address = a.p - 8
      · rw [same]
        exact Function.update_self _ _ _
      · exact (Function.update_of_ne same _ _).trans (unused.resolve_left same)
    · exact nonnull
    · refine ⟨?_, Or.inl ?_⟩
      · simp [Choice.bytes]
        omega
      · rw [wordAt_take _ (by omega), wordAt_append _ (by omega), unpooled]

/-- The copy of a pooled chunk reads behind the end of the chunk. -/
theorem myRealloc_pooled (holds : heap.Holds live frees) {a : Held} (held : a ∈ live) {bytes : List UInt8}
    (here : heap.chunks (a.p - 8) = some bytes) (pooled : wordAt bytes 0 < numPools) {choice : Choice} {n : Nat}
    (small : n < 2 ^ 40) (unused : heap.chunks choice.address = none) (nonnull : choice.address + 8 ≠ 0) :
    ∃ heap', myRealloc choice a.p n heap = .error (.abort .memory) heap' := by
  obtain ⟨-, other, there, serves⟩ := holds.held a held
  rw [here] at there
  obtain rfl := Option.some.inj there
  obtain ⟨i, pool, chunk⟩ := serves.2.resolve_left
    (by rw [noPool]; have : numPools = 14 := rfl; omega)
  obtain ⟨q, heap', run, handsOut⟩ := myMalloc_run holds small unused nonnull
  obtain ⟨frees', after⟩ := handsOut.holds
  have valid : q ≠ 0 := (after.held _ List.mem_cons_self).1
  have same := handsOut.kept _ _ here
  have short : ¬ 8 + 2 ^ (minSizePow + i) ≤ bytes.length := by
    rw [chunk.1]
    omega
  refine ⟨heap', ?_⟩
  rw [myRealloc, EStateM.bind_ok (chunkPool_run here serves chunk.2)]
  have notLarge : ¬ ((i : Int) ≥ numPools) := by omega
  simp only [notLarge, if_false, Int.toNat_natCast]
  rw [EStateM.bind_ok run, require_bind valid]
  apply EStateM.bind_error
  rw [copyUsable, EStateM.bind_ok (EStateM.get_apply heap')]
  simp only [same, short, if_false, EStateM.throw_apply]

end Run

end Menoetius
