import Menoetius.MyMalloc

/-
This file gives the invariant of the pool allocator, and the ways in which it is kept.
-/

namespace Menoetius
open ChunkMemory FileImage LittleEndian

/-- A pointer that the caller holds, and the size that it has asked for. -/
structure Held where
  p : Word
  n : Nat

/-- The size of a pooled chunk follows from its pool number. -/
def PooledBytes (i : Nat) (bytes : List UInt8) : Prop :=
  bytes.length = 2 ^ (minSizePow + i) ∧ wordAt bytes 0 = i

/-- The chunk has room for a request, and it starts with its pool number. -/
def ServesRequest (bytes : List UInt8) (n : Nat) : Prop :=
  8 + n ≤ bytes.length ∧ (wordAt bytes 0 = noPool ∨ ∃ i < numPools, PooledBytes i bytes)

/-- The first usable bytes of a free chunk point to the next one. -/
def linkIn (chunks : Chunks Word) (p : Word) : Option Word :=
  (chunks (p - 8)).map fun bytes => BitVec.ofNat 64 (wordAt bytes 8)

/-- The pools are lists of free chunks of their size, and the caller holds none of these. -/
structure Heap.Holds (heap : Heap) (live : List Held) (frees : Nat → List Word) : Prop where
  chain : ∀ i < numPools, Chain (linkIn heap.chunks) 0 (heap.pools i) (frees i)
  free : ∀ i < numPools, ∀ p ∈ frees i, ∃ bytes, heap.chunks (p - 8) = some bytes ∧ PooledBytes i bytes
  nodup : ∀ i < numPools, (frees i).Nodup
  held : ∀ a ∈ live, a.p ≠ 0 ∧ ∃ bytes, heap.chunks (a.p - 8) = some bytes ∧ ServesRequest bytes a.n
  distinct : live.Pairwise fun a b => a.p ≠ b.p
  apart : ∀ i < numPools, ∀ p ∈ frees i, ∀ a ∈ live, a.p ≠ p

theorem sub_eight_ne {p q : Word} (different : p ≠ q) : p - 8 ≠ q - 8 := by
  intro same
  exact different (BitVec.sub_left_inj 8 |>.mp same)

theorem add_sub_eight (a : Word) : a + 8 - 8 = a := BitVec.add_sub_cancel a 8

section Invariant
variable {heap : Heap} {live : List Held} {frees : Nat → List Word}

/-- Chunks that are in no pool do not matter for the lists. -/
theorem Heap.Holds.lists (holds : heap.Holds live frees) {chunks : Chunks Word}
    (same : ∀ i < numPools, ∀ p ∈ frees i, chunks (p - 8) = heap.chunks (p - 8)) :
    (∀ i < numPools, Chain (linkIn chunks) 0 (heap.pools i) (frees i)) ∧
      ∀ i < numPools, ∀ p ∈ frees i, ∃ bytes, chunks (p - 8) = some bytes ∧ PooledBytes i bytes := by
  refine ⟨fun i pool => (holds.chain i pool).congr fun p member => ?_, fun i pool p member => ?_⟩
  · rw [linkIn, linkIn, same i pool p member]
  · rw [same i pool p member]
    exact holds.free i pool p member

/-- A chunk at an unused address goes to the caller. -/
theorem Heap.Holds.fresh (holds : heap.Holds live frees) {a : Word} (unused : heap.chunks a = none)
    (nonnull : a + 8 ≠ 0) {bytes : List UInt8} {n : Nat} (serves : ServesRequest bytes n) :
    Heap.Holds ⟨Function.update heap.chunks a (some bytes), heap.pools⟩ (⟨a + 8, n⟩ :: live) frees := by
  have other : ∀ {p : Word} {old : List UInt8}, heap.chunks (p - 8) = some old → p - 8 ≠ a := by
    rintro p old here rfl
    rw [unused] at here
    cases here
  have apart : ∀ {p : Word} {old : List UInt8}, heap.chunks (p - 8) = some old → a + 8 ≠ p := by
    rintro p old here rfl
    rw [add_sub_eight, unused] at here
    cases here
  obtain ⟨chain, free⟩ := @lists heap live frees holds (Function.update heap.chunks a (some bytes))
    (by
      intro i pool p member
      obtain ⟨old, here, -⟩ := holds.free i pool p member
      exact Function.update_of_ne (other here) _ _)
  refine ⟨chain, free, holds.nodup, ?_, ?_, ?_⟩
  · intro b member
    rcases List.mem_cons.mp member with rfl | old
    · exact ⟨nonnull, bytes, by simp, serves⟩
    · obtain ⟨valid, kept, here, room⟩ := holds.held b old
      exact ⟨valid, kept, by rw [← here]; exact Function.update_of_ne (other here) _ _, room⟩
  · refine List.pairwise_cons.mpr ⟨fun b member => ?_, holds.distinct⟩
    obtain ⟨-, old, here, -⟩ := holds.held b member
    exact apart here
  · intro i pool p member b held
    rcases List.mem_cons.mp held with rfl | old
    · obtain ⟨bytes, here, -⟩ := holds.free i pool p member
      exact apart here
    · exact holds.apart i pool p member b old

/-- The pointers that the caller holds without one of them. -/
def without (live : List Held) (p : Word) : List Held := live.filter fun a => a.p ≠ p

theorem mem_without {p : Word} {b : Held} : b ∈ without live p ↔ b ∈ live ∧ b.p ≠ p := by
  simp [without]

/-- A chunk of the caller goes back to the system. -/
theorem Heap.Holds.release (holds : heap.Holds live frees) {a : Held} (held : a ∈ live) :
    Heap.Holds ⟨Function.update heap.chunks (a.p - 8) none, heap.pools⟩ (without live a.p) frees := by
  obtain ⟨chain, free⟩ := @lists heap live frees holds (Function.update heap.chunks (a.p - 8) none)
    (by
      intro i pool p member
      exact Function.update_of_ne (sub_eight_ne (holds.apart i pool p member a held).symm) _ _)
  refine ⟨chain, free, holds.nodup, ?_, holds.distinct.sublist List.filter_sublist, ?_⟩
  · intro b member
    obtain ⟨old, different⟩ := mem_without.mp member
    obtain ⟨valid, bytes, here, room⟩ := holds.held b old
    exact ⟨valid, bytes, by rw [← here]; exact Function.update_of_ne (sub_eight_ne different) _ _, room⟩
  · exact fun i pool p member b kept => holds.apart i pool p member b (mem_without.mp kept).1

/-- The caller changes its bytes behind the pool number. -/
theorem Heap.Holds.change (holds : heap.Holds live frees) {a : Held} (held : a ∈ live) {bytes bytes' : List UInt8}
    (here : heap.chunks (a.p - 8) = some bytes) (length : bytes'.length = bytes.length)
    (header : wordAt bytes' 0 = wordAt bytes 0) :
    Heap.Holds ⟨Function.update heap.chunks (a.p - 8) (some bytes'), heap.pools⟩ live frees := by
  obtain ⟨chain, free⟩ := @lists heap live frees holds (Function.update heap.chunks (a.p - 8) (some bytes'))
    (by
      intro i pool p member
      exact Function.update_of_ne (sub_eight_ne (holds.apart i pool p member a held).symm) _ _)
  refine ⟨chain, free, holds.nodup, ?_, holds.distinct, holds.apart⟩
  intro b member
  obtain ⟨valid, old, there, room⟩ := holds.held b member
  refine ⟨valid, ?_⟩
  by_cases same : b.p = a.p
  · rw [same, here] at there
    obtain rfl := Option.some.inj there
    exact ⟨bytes', by rw [same]; exact Function.update_self _ _ _,
      by simpa [ServesRequest, PooledBytes, length, header] using room⟩
  · exact ⟨old, by rw [← there]; exact Function.update_of_ne (sub_eight_ne same) _ _, room⟩

/-- The first chunk of a pool goes to the caller. -/
theorem Heap.Holds.reuse (holds : heap.Holds live frees) {i : Nat} (pool : i < numPools)
    (some : heap.pools i ≠ 0) {n : Nat} (fits : 8 + n ≤ 2 ^ (minSizePow + i)) :
    ∃ next rest, linkIn heap.chunks (heap.pools i) = .some next ∧ frees i = heap.pools i :: rest ∧
      Heap.Holds ⟨heap.chunks, Function.update heap.pools i next⟩ (⟨heap.pools i, n⟩ :: live)
        (Function.update frees i rest) := by
  obtain ⟨next, rest, split, linked, tail⟩ := (holds.chain i pool).eq_cons some
  have nodup := holds.nodup i pool
  rw [split, List.nodup_cons] at nodup
  have first : heap.pools i ∈ frees i := by
    rw [split]
    exact List.mem_cons_self
  have fewer : ∀ j, ∀ p ∈ Function.update frees i rest j, p ∈ frees j := by
    intro j p member
    by_cases same : j = i
    · subst same
      rw [Function.update_self] at member
      rw [split]
      exact List.mem_cons_of_mem _ member
    · rwa [Function.update_of_ne same] at member
  refine ⟨next, rest, linked, split, ?_, ?_, ?_, ?_, ?_, ?_⟩
  · intro j other
    show Chain (linkIn heap.chunks) 0 (Function.update heap.pools i next j) (Function.update frees i rest j)
    by_cases same : j = i
    · subst same
      rw [Function.update_self, Function.update_self]
      exact tail
    · rw [Function.update_of_ne same, Function.update_of_ne same]
      exact holds.chain j other
  · exact fun j other p member => holds.free j other p (fewer j p member)
  · intro j other
    by_cases same : j = i
    · subst same
      rw [Function.update_self]
      exact nodup.2
    · rw [Function.update_of_ne same]
      exact holds.nodup j other
  · intro b member
    rcases List.mem_cons.mp member with rfl | old
    · obtain ⟨bytes, here, pooled⟩ := holds.free i pool _ first
      exact ⟨some, bytes, here, by rw [pooled.1]; exact fits, Or.inr ⟨i, pool, pooled⟩⟩
    · exact holds.held b old
  · exact List.pairwise_cons.mpr ⟨fun b member => (holds.apart i pool _ first b member).symm, holds.distinct⟩
  · intro j other p member b held
    rcases List.mem_cons.mp held with rfl | old
    · rintro rfl
      by_cases same : j = i
      · subst same
        rw [Function.update_self] at member
        exact nodup.1 member
      · -- The pool number tells the lists apart.
        obtain ⟨bytes, here, pooled⟩ := holds.free i pool _ first
        obtain ⟨bytes', here', pooled'⟩ := holds.free j other _ (fewer j _ member)
        rw [here] at here'
        obtain rfl := Option.some.inj here'
        exact same (pooled'.2.symm.trans pooled.2)
    · exact holds.apart j other p (fewer j p member) b old

/-- A chunk of the caller becomes the first one of its pool. -/
theorem Heap.Holds.retire (holds : heap.Holds live frees) {a : Held} (held : a ∈ live) {bytes : List UInt8}
    (here : heap.chunks (a.p - 8) = some bytes) {i : Nat} (pool : i < numPools) (pooled : PooledBytes i bytes) :
    Heap.Holds ⟨Function.update heap.chunks (a.p - 8) (some (putWordAt bytes 8 (heap.pools i).toNat)),
      Function.update heap.pools i a.p⟩ (without live a.p) (Function.update frees i (a.p :: frees i)) := by
  have room : 8 + 8 ≤ bytes.length := by
    rw [pooled.1]
    exact (by decide : 16 ≤ 2 ^ minSizePow).trans (Nat.pow_le_pow_right (by decide) (Nat.le_add_right _ _))
  have length := putWordAt_length room (heap.pools i).toNat
  have header : wordAt (putWordAt bytes 8 (heap.pools i).toNat) 0 = wordAt bytes 0 :=
    wordAt_writeAt_before (by decide) (by rwa [bytesOf_length])
  have linked : wordAt (putWordAt bytes 8 (heap.pools i).toNat) 8 = (heap.pools i).toNat :=
    wordAt_putWordAt room (heap.pools i).isLt
  have changed := holds.change held here length header
  refine ⟨?_, ?_, ?_, ?_, holds.distinct.sublist List.filter_sublist, ?_⟩
  · intro j other
    show Chain (linkIn (Function.update heap.chunks (a.p - 8) _)) 0 (Function.update heap.pools i a.p j)
      (Function.update frees i (a.p :: frees i) j)
    by_cases same : j = i
    · subst same
      rw [Function.update_self, Function.update_self]
      refine .cons (holds.held a held).1 ?_ (changed.chain j other)
      simp [linkIn, linked]
    · rw [Function.update_of_ne same, Function.update_of_ne same]
      exact changed.chain j other
  · intro j other p member
    by_cases same : j = i
    · subst same
      rw [Function.update_self] at member
      rcases List.mem_cons.mp member with rfl | old
      · exact ⟨_, Function.update_self _ _ _, length.trans pooled.1, header.trans pooled.2⟩
      · exact changed.free j other p old
    · rw [Function.update_of_ne same] at member
      exact changed.free j other p member
  · intro j other
    by_cases same : j = i
    · subst same
      rw [Function.update_self]
      exact List.nodup_cons.mpr ⟨fun member => holds.apart j other a.p member a held rfl, holds.nodup j other⟩
    · rw [Function.update_of_ne same]
      exact holds.nodup j other
  · exact fun b member => changed.held b (mem_without.mp member).1
  · intro j other p member b kept
    obtain ⟨old, different⟩ := mem_without.mp kept
    by_cases same : j = i
    · subst same
      rw [Function.update_self] at member
      rcases List.mem_cons.mp member with rfl | before
      · exact different
      · exact holds.apart j other p before b old
    · rw [Function.update_of_ne same] at member
      exact holds.apart j other p member b old

end Invariant

end Menoetius
