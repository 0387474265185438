import Menoetius.PoolRun

/-
This file says when the pool allocator keeps every access inside its chunk, over all runs of its callers.
-/

namespace Menoetius
open ChunkMemory FileImage

/-- The state of a run is the heap and the pointers that the caller holds. -/
structure PoolState where
  heap : Heap
  live : List Held

/-- What a caller does: it calls a function of the allocator, or it writes behind a pointer. -/
inductive PoolOp where
  | malloc (n : Nat) (choice : Choice)
  | realloc (p : Word) (n : Nat) (choice : Choice)
  | free (p : Word)
  | write (p : Word) (start : Nat) (data : List UInt8)

/-- The state in front of the first call. -/
def PoolState.init : PoolState := ⟨⟨fun _ => none, fun _ => 0⟩, []⟩

/-- The chunk does not exist yet, and the pointer behind its pool number does not wrap around. -/
def Choice.Fresh (choice : Choice) (heap : Heap) : Prop :=
  heap.chunks choice.address = none ∧ choice.address + 8 ≠ 0

/-- The pointer leads to a chunk of a pool. -/
def PoolState.Pooled (state : PoolState) (p : Word) : Prop :=
  ∃ bytes, state.heap.chunks (p - 8) = some bytes ∧ wordAt bytes 0 < numPools

/-- The caller passes pointers that it holds, and it writes to usable bytes only. The system hands out unused
addresses, and `realloc` of a chunk may keep its own. -/
def PoolOp.Valid (state : PoolState) : PoolOp → Prop
  | .malloc n choice => n < 2 ^ 40 ∧ choice.Fresh state.heap
  | .realloc p n choice => (∃ a ∈ state.live, a.p = p) ∧ n < 2 ^ 40 ∧
      (choice.Fresh state.heap ∨ ¬ state.Pooled p ∧ choice.address = p - 8)
  | .free p => ∃ a ∈ state.live, a.p = p
  | .write p start data => ∃ a ∈ state.live, a.p = p ∧ ∀ bytes, state.heap.chunks (p - 8) = some bytes →
      8 + start + data.length ≤ bytes.length

/-- The call hands out a pointer, which the caller then holds. -/
def PoolState.handOut (state : PoolState) (call : HeapM Word) (n : Nat) (live : List Held) :
    Except Failure PoolState :=
  match call state.heap with
  | .ok q heap => .ok ⟨heap, ⟨q, n⟩ :: live⟩
  | .error failure _ => .error failure

theorem handOut_run {state : PoolState} {call : HeapM Word} {q : Word} {heap : Heap}
    (run : call state.heap = .ok q heap) (n : Nat) (live : List Held) :
    state.handOut call n live = .ok ⟨heap, ⟨q, n⟩ :: live⟩ := by
  rw [PoolState.handOut, run]

/-- The call hands out nothing. -/
def PoolState.goOn (state : PoolState) (call : HeapM Unit) (live : List Held) : Except Failure PoolState :=
  match call state.heap with
  | .ok _ heap => .ok ⟨heap, live⟩
  | .error failure _ => .error failure

theorem goOn_run {state : PoolState} {call : HeapM Unit} {heap : Heap} (run : call state.heap = .ok () heap)
    (live : List Held) : state.goOn call live = .ok ⟨heap, live⟩ := by
  rw [PoolState.goOn, run]

def PoolState.step (state : PoolState) : PoolOp → Except Failure PoolState
  | .malloc n choice => state.handOut (myMalloc choice n) n state.live
  | .realloc p n choice => state.handOut (myRealloc choice p n) n (without state.live p)
  | .free p => state.goOn (myFree p) (without state.live p)
  | .write p start data => state.goOn (setChunkBytes (p - 8) (8 + start) data) state.live

/-- Every pointer that the caller holds has as many usable bytes as it asked for, and no two of them
share a chunk. -/
def PoolState.Safe (state : PoolState) : Prop :=
  (∀ a ∈ state.live, ∃ bytes, state.heap.chunks (a.p - 8) = some bytes ∧ 8 + a.n ≤ bytes.length) ∧
    state.live.Pairwise fun a b => a.p - 8 ≠ b.p - 8

/-- What a new pointer promises: a chunk that existed is one of the pool of the request, and the new chunk
of `my_realloc` starts with the usable bytes of the old one. -/
def PoolOp.Hands (before after : PoolState) : PoolOp → Prop
  | .malloc n _ => ∃ q, after.live = ⟨q, n⟩ :: before.live ∧
      ∀ bytes, before.heap.chunks (q - 8) = some bytes → wordAt bytes 0 = requestPow n - minSizePow
  | .realloc p n _ => ∃ q, after.live = ⟨q, n⟩ :: without before.live p ∧
      ∀ bytes bytes', before.heap.chunks (p - 8) = some bytes → after.heap.chunks (q - 8) = some bytes' →
        readAt bytes' 8 (min (bytes.length - 8) n) = readAt bytes 8 (min (bytes.length - 8) n)
  | .free p => after.live = without before.live p
  | .write _ _ _ => after.live = before.live

/-- The call stays inside its chunks and hands out what it promises, and no chunk changes its pool. -/
def PoolOp.Lawful (state : PoolState) (op : PoolOp) : Prop :=
  ∃ after, state.step op = .ok after ∧ after.Safe ∧ op.Hands state after ∧
    ∀ c bytes bytes', state.heap.chunks c = some bytes → after.heap.chunks c = some bytes' →
      wordAt bytes' 0 = wordAt bytes 0

/-- Every call of a run is lawful, as long as the caller and the system keep their rules. -/
def LawfulRun : PoolState → List PoolOp → Prop
  | _, [] => True
  | state, op :: ops => op.Valid state → op.Lawful state ∧
      ∀ after, state.step op = .ok after → LawfulRun after ops

/-- The call resizes no chunk of a pool. -/
def PoolOp.KeepsPools (state : PoolState) : PoolOp → Prop
  | .realloc p _ _ => ¬ state.Pooled p
  | _ => True

/-- No call of a run resizes a chunk of a pool. -/
def PlainRun : PoolState → List PoolOp → Prop
  | _, [] => True
  | state, op :: ops => op.Valid state → op.KeepsPools state ∧
      ∀ after, state.step op = .ok after → PlainRun after ops

section Law
variable {state : PoolState} {frees : Nat → List Word}

theorem Heap.Holds.safe {heap : Heap} {live : List Held} (holds : heap.Holds live frees) :
    PoolState.Safe ⟨heap, live⟩ := by
  refine ⟨fun a member => ?_, holds.distinct.imp sub_eight_ne⟩
  obtain ⟨-, bytes, here, serves⟩ := holds.held a member
  exact ⟨bytes, here, serves.1⟩

/-- A valid call that resizes no pooled chunk is lawful, and it keeps the invariant. -/
theorem poolStep_lawful (holds : state.heap.Holds state.live frees) {op : PoolOp} (valid : op.Valid state)
    (plain : op.KeepsPools state) :
    op.Lawful state ∧ ∀ after, state.step op = .ok after → ∃ frees', after.heap.Holds after.live frees' := by
  have known : ∀ {after : PoolState} {frees' : Nat → List Word}, state.step op = .ok after →
      after.heap.Holds after.live frees' →
      ∀ other, state.step op = .ok other → ∃ frees', other.heap.Holds other.live frees' := by
    intro after frees' run holds' other again
    rw [run] at again
    cases again
    exact ⟨frees', holds'⟩
  cases op with
  | malloc n choice =>
      obtain ⟨small, unused, nonnull⟩ := valid
      obtain ⟨q, heap', run, ⟨frees', holds'⟩, kept, reused⟩ := myMalloc_run holds small unused nonnull
      have step : state.step (.malloc n choice) = _ := handOut_run run n state.live
      refine ⟨⟨_, step, holds'.safe, ⟨q, rfl, reused⟩, ?_⟩, known step holds'⟩
      intro c bytes bytes' here there
      rw [kept c bytes here] at there
      rw [Option.some.inj there]
  | realloc p n choice =>
      obtain ⟨⟨a, held, rfl⟩, small, choices⟩ := valid
      obtain ⟨-, bytes, here, serves⟩ := holds.held a held
      have unpooled : wordAt bytes 0 = noPool := by
        refine serves.2.resolve_right fun ⟨i, pool, pooled⟩ => plain ⟨bytes, here, ?_⟩
        rw [pooled.2]
        exact pool
      have valid : a.p - 8 + 8 = a.p := BitVec.sub_add_cancel a.p 8
      have unused : choice.address = a.p - 8 ∨ state.heap.chunks choice.address = none :=
        choices.symm.imp And.right And.left
      have nonnull : choice.address + 8 ≠ 0 := by
        rcases choices with fresh | ⟨-, same⟩
        · exact fresh.2
        · rw [same, valid]
          exact (holds.held a held).1
      obtain ⟨frees', run, holds'⟩ := myRealloc_run holds held here unpooled n unused nonnull
      have step : state.step (.realloc a.p n choice) = _ := handOut_run run n (without state.live a.p)
      have inside := serves.1
      refine ⟨⟨_, step, holds'.safe, ⟨_, rfl, ?_⟩, ?_⟩, known step holds'⟩
      · intro old new before after
        rw [here] at before
        obtain rfl := Option.some.inj before
        simp only [add_sub_eight, Function.update_self, Option.some.injEq] at after
        subst after
        rw [readAt, readAt, List.drop_take, List.take_take, List.drop_append_of_le_length (by omega),
          Nat.min_eq_left (by omega), List.take_append_of_le_length (by rw [List.length_drop]; omega)]
      · intro c old new before after
        by_cases moved : c = choice.address
        · subst moved
          simp only [Function.update_self, Option.some.injEq] at after
          have same : choice.address = a.p - 8 := unused.resolve_right (by rw [before]; simp)
          rw [same, here] at before
          obtain rfl := Option.some.inj before
          rw [← after, wordAt_take _ (by omega), wordAt_append _ (by omega)]
        · by_cases gone : c = a.p - 8
          · subst gone
            simp only [Function.update_of_ne moved, Function.update_self] at after
            cases after
          · simp only [Function.update_of_ne moved, Function.update_of_ne gone, before,
              Option.some.injEq] at after
            rw [after]
  | free p =>
      obtain ⟨a, held, rfl⟩ := valid
      obtain ⟨heap', frees', run, holds', kept⟩ := myFree_run holds held
      have step : state.step (.free a.p) = _ := goOn_run run (without state.live a.p)
      exact ⟨⟨_, step, holds'.safe, rfl, kept⟩, known step holds'⟩
  | write p start data =>
      obtain ⟨a, held, rfl, inside⟩ := valid
      obtain ⟨-, bytes, here, serves⟩ := holds.held a held
      have room := inside bytes here
      have header : wordAt (writeAt bytes (8 + start) data) 0 = wordAt bytes 0 :=
        wordAt_writeAt_before (by omega) room
      have holds' := holds.change held here (writeAt_length bytes data (8 + start) room) header
      have step : state.step (.write a.p start data) = _ := goOn_run (setChunkBytes_run here room) state.live
      refine ⟨⟨_, step, holds'.safe, rfl, ?_⟩, known step holds'⟩
      intro c old new before after
      by_cases same : c = a.p - 8
      · subst same
        rw [here] at before
        obtain rfl := Option.some.inj before
        simp only [Function.update_self, Option.some.injEq] at after
        rw [← after, header]
      · simp only [Function.update_of_ne same, before, Option.some.injEq] at after
        rw [after]

/-- A valid call that resizes a pooled chunk reads outside of it. -/
theorem poolStep_plain (holds : state.heap.Holds state.live frees) {op : PoolOp} (valid : op.Valid state)
    (lawful : op.Lawful state) : op.KeepsPools state := by
  cases op with
  | realloc p n choice =>
      rintro ⟨bytes, here, pooled⟩
      obtain ⟨⟨a, held, rfl⟩, small, choices⟩ := valid
      obtain ⟨unused, nonnull⟩ := choices.resolve_right fun ⟨plain, _⟩ => plain ⟨bytes, here, pooled⟩
      obtain ⟨heap', fails⟩ := myRealloc_pooled holds held here pooled small unused nonnull
      obtain ⟨after, step, -⟩ := lawful
      rw [PoolState.step, PoolState.handOut, fails] at step
      cases step
  | _ => trivial

theorem poolRun_law_of_holds (holds : state.heap.Holds state.live frees) (ops : List PoolOp) :
    LawfulRun state ops ↔ PlainRun state ops := by
  induction ops generalizing state frees with
  | nil => exact Iff.rfl
  | cons op ops ih =>
      constructor
      · intro lawful valid
        have plain := poolStep_plain holds valid (lawful valid).1
        refine ⟨plain, fun after run => ?_⟩
        obtain ⟨frees', holds'⟩ := (poolStep_lawful holds valid plain).2 after run
        exact (ih holds').mp ((lawful valid).2 after run)
      · intro plain valid
        obtain ⟨lawful, keeps⟩ := poolStep_lawful holds valid (plain valid).1
        refine ⟨lawful, fun after run => ?_⟩
        obtain ⟨frees', holds'⟩ := keeps after run
        exact (ih holds').mpr ((plain valid).2 after run)

end Law

theorem poolInit_holds : PoolState.init.heap.Holds PoolState.init.live fun _ => [] :=
  ⟨fun _ _ => .nil, fun _ _ _ member => absurd member List.not_mem_nil, fun _ _ => List.nodup_nil,
    fun _ member => absurd member List.not_mem_nil, .nil, fun _ _ _ member => absurd member List.not_mem_nil⟩

/-- A run of the allocator is lawful exactly when none of its calls resizes a chunk of a pool. -/
theorem poolRun_law_iff (ops : List PoolOp) :
    LawfulRun PoolState.init ops ↔ PlainRun PoolState.init ops :=
  poolRun_law_of_holds poolInit_holds ops

/-- The chunk that the system hands out first, and another one. -/
def firstChoice : Choice := ⟨64, fun _ => 0⟩

def secondChoice : Choice := ⟨1024, fun _ => 0⟩

/-- A request of ten bytes grows to twenty. -/
def growingOps : List PoolOp := [.malloc 10 firstChoice, .realloc 72 20 secondChoice]

theorem poolRun_growing : ¬ ∀ ops, LawfulRun PoolState.init ops := by
  intro claim
  obtain ⟨-, later⟩ := claim growingOps ⟨by decide, rfl, by decide⟩
  obtain ⟨⟨after, step, -⟩, -⟩ := later _ rfl
    ⟨⟨_, List.mem_cons_self, rfl⟩, by decide, Or.inl ⟨rfl, by decide⟩⟩
  cases step

end Menoetius
