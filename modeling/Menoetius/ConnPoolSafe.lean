import Menoetius.ConnPool

/-
This file shows that each descriptor has one owner and each member at most one connection, in every order of the steps of
the threads.
-/

namespace Menoetius
open EStateM

/-- What the pool promises. -/
structure ConnDataPool.Safe (pool : ConnDataPool) : Prop where
  room : pool.free.length = pool.pool.length ∧ -1 ≤ pool.freeI ∧ pool.freeI < pool.pool.length
  idle : (pool.free.take (pool.freeI + 1).toNat).Nodup ∧
    ∀ index, index ∈ pool.free.take (pool.freeI + 1).toNat ↔ pool.Idle index
  full : (∃ after, connDataPoolGet pool = .ok none after) ↔ ∀ index, ¬ pool.Idle index
  assigned : ∀ ptr fd, pool.accept = .assigning ptr fd → ∃ member, pool.pool[ptr]? = some member ∧ member.Rests
  owners : pool.openFds.Perm (pool.accept.fds ++ pool.pool.flatMap PoolMember.fds)
  distinct : pool.openFds.Nodup

/-- A member with a connection, or one whose thread gives it back. -/
def PoolMember.Busy (member : PoolMember) : Prop :=
  0 ≤ member.fd ∧ member.stage ∈ [.starting, .waiting, .serving, .closed] ∨ member.fd = -1 ∧ member.stage = .cleared

/-- The array of the pool is the stack of idle members, and what was left of older ones behind it. -/
structure ConnDataPool.Holds (pool : ConnDataPool) (idle rest : List Nat) : Prop where
  free : pool.free = idle ++ rest
  freeI : pool.freeI = idle.length - 1
  size : pool.free.length = pool.pool.length
  nodup : idle.Nodup
  idle_iff : ∀ index, index ∈ idle ↔ pool.Idle index
  assigned : ∀ ptr fd, pool.accept = .assigning ptr fd → ∃ member, pool.pool[ptr]? = some member ∧ member.Rests
  members : ∀ member ∈ pool.pool, member.Rests ∨ member.Busy
  owners : pool.openFds.Perm (pool.accept.fds ++ pool.pool.flatMap PoolMember.fds)
  distinct : pool.openFds.Nodup
  valid : ∀ fd ∈ pool.openFds, 0 ≤ fd

/-- The step returns, and leaves a pool that is in order. -/
def KeepsMembers (step : PoolM Unit) (pool : ConnDataPool) : Prop :=
  ∃ after, step pool = .ok () after ∧ after.pool.length = pool.pool.length ∧ ∃ idle rest, after.Holds idle rest

section
variable {members : List PoolMember} {index : Nat} {old new : PoolMember}

/-- A member that changes leaves the descriptors of the others. -/
theorem flatMap_set (found : members[index]? = some old) (new : PoolMember) :
    ∃ others, (members.flatMap PoolMember.fds).Perm (old.fds ++ others) ∧
      ((members.set index new).flatMap PoolMember.fds).Perm (new.fds ++ others) := by
  induction members generalizing index with
  | nil => cases found
  | cons first rest ih =>
      cases index with
      | zero =>
          cases found
          exact ⟨rest.flatMap PoolMember.fds, List.Perm.refl _, List.Perm.refl _⟩
      | succ index =>
          obtain ⟨others, before, after⟩ := ih found
          have swap : ∀ fds : List Int, (first.fds ++ (fds ++ others)).Perm (fds ++ (first.fds ++ others)) :=
            fun fds => List.perm_append_comm_assoc first.fds fds others
          refine ⟨first.fds ++ others, ?_, ?_⟩
          · rw [List.flatMap_cons]
            exact (before.append_left _).trans (swap _)
          · rw [List.set_cons_succ, List.flatMap_cons]
            exact (after.append_left _).trans (swap _)

theorem getElem?_set_member (found : members[index]? = some old) (other : Nat) :
    (members.set index new)[other]? = if other = index then some new else members[other]? := by
  have inside := (List.getElem?_eq_some_iff.mp found).1
  rw [List.getElem?_set]
  by_cases same : index = other
  · rw [if_pos same, if_pos same.symm, if_pos inside]
  · rw [if_neg same, if_neg (Ne.symm same)]

theorem mem_set_member {member : PoolMember} (mem : member ∈ members.set index new) : member ∈ members ∨ member = new :=
  List.mem_or_eq_of_mem_set mem

end

section
variable {pool : ConnDataPool} {idle rest : List Nat}

theorem ConnDataPool.Holds.mem_lt (holds : pool.Holds idle rest) {index : Nat} (mem : index ∈ idle) :
    index < pool.pool.length := by
  obtain ⟨⟨member, found, _⟩, _⟩ := (holds.idle_iff index).mp mem
  exact (List.getElem?_eq_some_iff.mp found).1

/-- There is room in the array for a member that is not idle. -/
theorem ConnDataPool.Holds.room (holds : pool.Holds idle rest) {index : Nat} (inside : index < pool.pool.length)
    (absent : index ∉ idle) : idle.length < pool.pool.length := by
  have distinct : (index :: idle).Nodup := List.nodup_cons.mpr ⟨absent, holds.nodup⟩
  have part : index :: idle ⊆ List.range pool.pool.length := by
    intro other mem
    rw [List.mem_range]
    rcases List.mem_cons.mp mem with rfl | mem
    · exact inside
    · exact holds.mem_lt mem
  have length := (List.subperm_of_subset distinct part).length_le
  rwa [List.length_range] at length

theorem ConnDataPool.Holds.idle_le (holds : pool.Holds idle rest) : idle.length ≤ pool.pool.length := by
  rw [← holds.size, holds.free, List.length_append]
  exact Nat.le_add_right _ _

/-- What `conn_data_pool_get` returns. -/
theorem connDataPoolGet_run (holds : pool.Holds idle rest) :
    connDataPoolGet pool = match idle.getLast? with
      | none => .ok none pool
      | some ptr => .ok (some ptr) { pool with freeI := pool.freeI - 1 } := by
  rw [connDataPoolGet, bind_ok (get_apply pool)]
  rcases List.eq_nil_or_concat idle with rfl | ⟨front, ptr, rfl⟩
  · have low : pool.freeI < 0 := by
      rw [holds.freeI]
      decide
    rw [if_pos low]
    rfl
  · rw [List.concat_eq_append] at holds ⊢
    have count : pool.freeI = front.length := by
      rw [holds.freeI, List.length_append, List.length_singleton]
      omega
    have found : pool.free[front.length]? = some ptr := by
      rw [holds.free, List.append_assoc, List.getElem?_append_right le_rfl, Nat.sub_self]
      rfl
    rw [if_neg (by omega), List.getLast?_concat, count, Int.toNat_natCast, found]
    dsimp only
    rw [← count]
    rfl

/-- What the state shows of itself. -/
theorem ConnDataPool.Holds.safe (holds : pool.Holds idle rest) : pool.Safe := by
  have count : (pool.freeI + 1).toNat = idle.length := by
    rw [holds.freeI]
    omega
  have taken : pool.free.take (pool.freeI + 1).toNat = idle := by
    rw [count, holds.free, List.take_left]
  have length := holds.idle_le
  refine
    { room := ⟨holds.size, ?_, ?_⟩
      idle := by rw [taken]; exact ⟨holds.nodup, holds.idle_iff⟩
      full := ?_
      assigned := holds.assigned
      owners := holds.owners
      distinct := holds.distinct }
  · rw [holds.freeI]
    omega
  · rw [holds.freeI]
    omega
  · rw [connDataPoolGet_run holds]
    cases last : idle.getLast? with
    | none =>
        have empty := List.getLast?_eq_none_iff.mp last
        refine iff_of_true ⟨pool, rfl⟩ fun index some => ?_
        have mem := (holds.idle_iff index).mpr some
        rw [empty] at mem
        cases mem
    | some ptr =>
        refine iff_of_false ?_ fun none => none ptr ((holds.idle_iff ptr).mp (List.mem_of_getLast? last))
        rintro ⟨after, run⟩
        cases run

/-- A member that is idle before and after its thread goes on, or not idle before and after. -/
theorem ConnDataPool.Holds.change (holds : pool.Holds idle rest) {index : Nat} {old new : PoolMember}
    (found : pool.pool[index]? = some old) (rests : new.Rests ↔ old.Rests) (kept : new.Rests ∨ new.Busy)
    {openFds : List Int}
    (owners : openFds.Perm (pool.accept.fds ++ (pool.pool.set index new).flatMap PoolMember.fds))
    (distinct : openFds.Nodup) (valid : ∀ fd ∈ openFds, 0 ≤ fd) :
    ConnDataPool.Holds { pool with pool := pool.pool.set index new, openFds } idle rest := by
  have same : ∀ other : Nat, (∃ member : PoolMember, (pool.pool.set index new)[other]? = some member ∧ member.Rests) ↔
      ∃ member : PoolMember, pool.pool[other]? = some member ∧ member.Rests := by
    intro other
    rw [getElem?_set_member found]
    by_cases here : other = index
    · rw [if_pos here, here, found]
      constructor
      · rintro ⟨_, ⟨⟩, fine⟩
        exact ⟨old, rfl, rests.mp fine⟩
      · rintro ⟨_, ⟨⟩, fine⟩
        exact ⟨new, rfl, rests.mpr fine⟩
    · rw [if_neg here]
  exact
    { holds with
      size := holds.size.trans List.length_set.symm
      idle_iff := fun other => (holds.idle_iff other).trans (and_congr (same other).symm Iff.rfl)
      assigned := fun ptr fd assigning => (same ptr).mpr (holds.assigned ptr fd assigning)
      members := fun member mem => (mem_set_member mem).elim (holds.members member) fun here => here ▸ kept
      owners
      distinct
      valid }

/-- The loop of the server changes its stage, but not the member it has taken. -/
theorem ConnDataPool.Holds.accept (holds : pool.Holds idle rest) {stage : AcceptStage} {openFds : List Int}
    (assigning : ∀ index fd, stage ≠ .assigning index fd) (before : ∀ index fd, pool.accept ≠ .assigning index fd)
    (owners : openFds.Perm (stage.fds ++ pool.pool.flatMap PoolMember.fds)) (distinct : openFds.Nodup)
    (valid : ∀ fd ∈ openFds, 0 ≤ fd) :
    ConnDataPool.Holds { pool with accept := stage, openFds } idle rest :=
  { holds with
    idle_iff := fun index => (holds.idle_iff index).trans (and_congr Iff.rfl
      (iff_of_true (before index) (assigning index)))
    assigned := fun ptr fd there => absurd there (assigning ptr fd)
    owners
    distinct
    valid }

/-- The loop of the server takes a member, or finds that there is none. -/
theorem take_holds (holds : pool.Holds idle rest) : KeepsMembers PoolStep.take.run pool := by
  have start : PoolStep.take.run pool = _ := bind_ok (get_apply pool) _
  cases stage : pool.accept with
  | accepted fd =>
      have other : ∀ index fd, pool.accept ≠ .assigning index fd := by
        intro index fd same
        rw [stage] at same
        cases same
      have owners := holds.owners
      rw [stage] at start owners
      have get := connDataPoolGet_run holds
      cases last : idle.getLast? with
      | none =>
          rw [last] at get
          have run : PoolStep.take.run pool = .ok () { pool with accept := .refusing fd } :=
            start.trans (bind_ok get _)
          refine ⟨_, run, rfl, idle, rest, ?_⟩
          have free : ∀ index other, AcceptStage.refusing fd ≠ .assigning index other := by
            intro index other same
            cases same
          exact holds.accept free other owners holds.distinct holds.valid
      | some ptr =>
          rw [last] at get
          have run : PoolStep.take.run pool =
              .ok () { pool with freeI := pool.freeI - 1, accept := .assigning ptr fd } := start.trans (bind_ok get _)
          obtain ⟨front, rfl⟩ := List.getLast?_eq_some_iff.mp last
          have nodup := holds.nodup
          rw [List.nodup_append] at nodup
          refine ⟨_, run, rfl, front, ptr :: rest,
            { holds with
              free := by rw [holds.free, List.append_assoc]; rfl
              freeI := ?_
              nodup := nodup.1
              idle_iff := ?_
              assigned := ?_
              owners }⟩
          · dsimp only
            rw [holds.freeI, List.length_append, List.length_singleton]
            omega
          · intro index
            have old := holds.idle_iff index
            rw [List.mem_append, List.mem_singleton] at old
            constructor
            · intro mem
              refine ⟨(old.mp (Or.inl mem)).1, ?_⟩
              rintro fd ⟨⟩
              exact nodup.2.2 _ mem _ List.mem_cons_self rfl
            · rintro ⟨some, different⟩
              refine (old.mpr ⟨some, other index⟩).resolve_right ?_
              rintro rfl
              exact different fd rfl
          · rintro _ _ ⟨⟩
            exact ((holds.idle_iff ptr).mp (by simp)).1
  | _ =>
      rw [stage] at start
      exact ⟨pool, start, rfl, idle, rest, holds⟩

/-- The loop of the server passes a connection on. The member that it has taken has none. -/
theorem assign_holds (holds : pool.Holds idle rest) : KeepsMembers PoolStep.assign.run pool := by
  have start : PoolStep.assign.run pool = _ := bind_ok (get_apply pool) _
  cases stage : pool.accept with
  | assigning ptr fd =>
      obtain ⟨member, found, none, stages⟩ := holds.assigned ptr fd stage
      have owners := holds.owners
      rw [stage] at start owners
      dsimp only at start
      rw [found] at start
      dsimp only at start
      by_cases locked : member.stage.locks = true
      · rw [if_pos locked] at start
        exact ⟨pool, start, rfl, idle, rest, holds⟩
      · rw [if_neg locked] at start
        have positive : 0 ≤ fd := holds.valid fd (owners.mem_iff.mpr (by simp [AcceptStage.fds]))
        let new : PoolMember := { member with fd := fd, hasValidConfig := false }
        have stages : member.stage = .starting ∨ member.stage = .waiting := by
          cases here : member.stage <;> simp [here, WorkerStage.locks] at stages locked ⊢
        have busy : new.Busy := Or.inl ⟨positive, by rcases stages with here | here <;> simp [new, here]⟩
        have moved : ¬ new.Rests := by
          rintro ⟨low, _⟩
          change fd = -1 at low
          omega
        have outside : ptr ∉ idle := fun mem => ((holds.idle_iff ptr).mp mem).2 fd stage
        obtain ⟨others, before, after⟩ := flatMap_set found new
        have oldFds : member.fds = [] := by
          rw [PoolMember.fds, if_neg]
          omega
        have newFds : new.fds = [fd] := by
          rw [PoolMember.fds, if_pos ⟨positive, by rcases stages with here | here <;> simp [new, here]⟩]
        rw [oldFds] at before
        rw [newFds] at after
        refine ⟨{ pool with pool := pool.pool.set ptr new, accept := .accepting }, start, List.length_set, idle, rest,
          { holds with
            size := holds.size.trans List.length_set.symm
            idle_iff := ?_
            assigned := fun _ _ there => by cases there
            members := fun other mem => (mem_set_member mem).elim (holds.members other) fun here => here ▸ Or.inr busy
            owners := ?_ }⟩
        · intro index
          rw [holds.idle_iff index, ConnDataPool.Idle, ConnDataPool.Idle]
          dsimp only
          rw [getElem?_set_member found]
          by_cases here : index = ptr
          · rw [if_pos here, here]
            refine iff_of_false (fun both => both.2 fd stage) ?_
            rintro ⟨⟨_, ⟨⟩, fine⟩, _⟩
            exact moved fine
          · rw [if_neg here]
            refine and_congr Iff.rfl (iff_of_true ?_ fun _ there => by cases there)
            intro other there
            rw [stage] at there
            cases there
            exact here rfl
        · exact owners.trans ((before.append_left _).trans (after.symm))
  | _ =>
      rw [stage] at start
      exact ⟨pool, start, rfl, idle, rest, holds⟩

/-- The loop of the server accepts a connection, or closes one. -/
theorem accept_holds (holds : pool.Holds idle rest) (fd : Int) : KeepsMembers (PoolStep.accept fd).run pool := by
  by_cases new : pool.accept = .accepting ∧ 0 ≤ fd ∧ fd ∉ pool.openFds
  · have run : (PoolStep.accept fd).run pool =
        .ok () { pool with accept := .accepted fd, openFds := fd :: pool.openFds } := by
      rw [PoolStep.run, modify_apply, if_pos new]
    obtain ⟨stage, positive, unused⟩ := new
    have owners := holds.owners
    rw [stage] at owners
    refine ⟨_, run, rfl, idle, rest, holds.accept ?_ ?_ (owners.cons fd) (List.nodup_cons.mpr ⟨unused, holds.distinct⟩)
      (List.forall_mem_cons.mpr ⟨positive, holds.valid⟩)⟩
    · rintro _ _ ⟨⟩
    · intro index other there
      rw [stage] at there
      cases there
  · have run : (PoolStep.accept fd).run pool = .ok () pool := by
      rw [PoolStep.run, modify_apply, if_neg new]
    exact ⟨pool, run, rfl, idle, rest, holds⟩

/-- A descriptor that is closed was open. -/
theorem owners_erase {openFds others : List Int} {fd : Int} (owners : openFds.Perm (fd :: others)) :
    (openFds.erase fd).Perm others := by
  have same := owners.erase fd
  rwa [List.erase_cons_head] at same

theorem refuse_holds (holds : pool.Holds idle rest) : KeepsMembers PoolStep.refuse.run pool := by
  have start : PoolStep.refuse.run pool = _ := modify_apply _ pool
  cases stage : pool.accept with
  | refusing fd =>
      have owners := holds.owners
      rw [stage] at start owners
      refine ⟨_, start, rfl, idle, rest, holds.accept ?_ ?_ (owners_erase owners) (holds.distinct.erase fd)
        fun other mem => holds.valid other (List.mem_of_mem_erase mem)⟩
      · rintro _ _ ⟨⟩
      · intro index other there
        rw [stage] at there
        cases there
  | _ =>
      rw [stage] at start
      exact ⟨pool, start, rfl, idle, rest, holds⟩

/-- A thread that stands somewhere else stays there. -/
theorem stepMember_holds (holds : pool.Holds idle rest) {index : Nat} {stage : WorkerStage}
    {change : PoolMember → PoolM Unit}
    (changes : ∀ member, pool.pool[index]? = some member → member.stage = stage → KeepsMembers (change member) pool) :
    KeepsMembers (stepMember index stage change) pool := by
  have start : stepMember index stage change pool = _ := bind_ok (get_apply pool) _
  cases found : pool.pool[index]? with
  | none =>
      rw [found] at start
      exact ⟨pool, start, rfl, idle, rest, holds⟩
  | some member =>
      rw [found] at start
      dsimp only at start
      by_cases there : member.stage = stage
      · rw [if_pos there] at start
        obtain ⟨after, run, kept⟩ := changes member found there
        exact ⟨after, start.trans run, kept⟩
      · rw [if_neg there] at start
        exact ⟨pool, start, rfl, idle, rest, holds⟩

/-- A thread that goes on without a change of its descriptor. -/
theorem setMember_holds (holds : pool.Holds idle rest) {index : Nat} {old new : PoolMember}
    (found : pool.pool[index]? = some old) (rests : new.Rests ↔ old.Rests) (kept : new.Rests ∨ new.Busy)
    (fds : new.fds = old.fds) : KeepsMembers (setMember index new) pool := by
  obtain ⟨others, before, after⟩ := flatMap_set found new
  rw [fds] at after
  exact ⟨_, modify_apply _ pool, List.length_set, idle, rest, holds.change found rests kept
    (holds.owners.trans ((before.trans after.symm).append_left _)) holds.distinct holds.valid⟩

/-- A member that does not stand in front of the wait or in it is not idle. -/
theorem PoolMember.not_rests {member : PoolMember} (stage : member.stage ∉ [.starting, .waiting, .released]) :
    ¬ member.Rests := fun fine => stage fine.2

/-- The thread of a member that has served closes the descriptor, which is still open. -/
theorem close_holds (holds : pool.Holds idle rest) (index : Nat) : KeepsMembers (PoolStep.close index).run pool := by
  refine stepMember_holds holds fun member found stage => ?_
  have positive : 0 ≤ member.fd := by
    rcases holds.members member (List.mem_of_getElem? found) with ⟨_, other⟩ | ⟨low, _⟩ | ⟨_, other⟩
    · simp [stage] at other
    · exact low
    · rw [stage] at other
      cases other
  let new : PoolMember := { member with stage := .closed }
  obtain ⟨others, before, after⟩ := flatMap_set found new
  have oldFds : member.fds = [member.fd] := by
    rw [PoolMember.fds, if_pos ⟨positive, by simp [stage]⟩]
  have newFds : new.fds = [] := by
    rw [PoolMember.fds, if_neg]
    simp [new]
  rw [oldFds] at before
  rw [newFds] at after
  have owners := (holds.owners.trans (before.append_left _)).trans List.perm_middle
  have run : (do
      modify fun pool => { pool with openFds := pool.openFds.erase member.fd }
      setMember index new : PoolM Unit) pool =
        .ok () { pool with pool := pool.pool.set index new, openFds := pool.openFds.erase member.fd } := rfl
  refine ⟨_, run, List.length_set, idle, rest, holds.change found (iff_of_false ?_ ?_) (Or.inr (Or.inl ?_))
    ((owners_erase owners).trans (after.symm.append_left _)) (holds.distinct.erase _)
    fun other mem => holds.valid other (List.mem_of_mem_erase mem)⟩
  · exact PoolMember.not_rests (by simp [new])
  · exact PoolMember.not_rests (by simp [stage])
  · exact ⟨positive, by simp [new]⟩

/-- `conn_data_pool_release` writes behind the last idle member, where the array has room. -/
theorem connDataPoolRelease_run (holds : pool.Holds idle rest) {index : Nat} (inside : index < pool.pool.length)
    (absent : index ∉ idle) : ∃ first behind, rest = first :: behind ∧ connDataPoolRelease index pool =
      .ok () { pool with freeI := pool.freeI + 1, free := (idle ++ [index]) ++ behind } := by
  have room := holds.room inside absent
  have length := holds.size
  rw [holds.free, List.length_append] at length
  have count : pool.freeI + 1 = idle.length := by
    rw [holds.freeI]
    omega
  obtain ⟨first, behind, rfl⟩ : ∃ first behind, rest = first :: behind :=
    List.exists_cons_of_length_pos (by omega)
  have written : pool.free.set (pool.freeI + 1).toNat index = (idle ++ [index]) ++ behind := by
    rw [count, Int.toNat_natCast, holds.free, List.set_append_right _ _ le_rfl, Nat.sub_self, List.set_cons_zero,
      List.append_assoc]
    rfl
  refine ⟨first, behind, rfl, ?_⟩
  rw [← written, connDataPoolRelease, bind_ok (modify_apply _ pool), bind_ok (get_apply _), require_bind ?_]
  · rfl
  · dsimp only
    rw [count, holds.size]
    omega

/-- The thread of a member gives it back when nothing else knows of the member. -/
theorem release_holds (holds : pool.Holds idle rest) (index : Nat) : KeepsMembers (PoolStep.release index).run pool := by
  refine stepMember_holds holds fun member found stage => ?_
  have inside := (List.getElem?_eq_some_iff.mp found).1
  have none : member.fd = -1 := by
    rcases holds.members member (List.mem_of_getElem? found) with ⟨low, _⟩ | ⟨_, other⟩ | ⟨low, _⟩
    · exact low
    · simp [stage] at other
    · exact low
  have moved : ¬ member.Rests := PoolMember.not_rests (by simp [stage])
  have absent : index ∉ idle := by
    intro mem
    obtain ⟨⟨other, there, fine⟩, _⟩ := (holds.idle_iff index).mp mem
    rw [found] at there
    cases there
    exact moved fine
  have own : ∀ fd, pool.accept ≠ .assigning index fd := by
    intro fd there
    obtain ⟨other, here, fine⟩ := holds.assigned index fd there
    rw [found] at here
    cases here
    exact moved fine
  let new : PoolMember := { member with stage := .released }
  have rests : new.Rests := ⟨none, by simp [new]⟩
  obtain ⟨first, behind, rfl, released⟩ := connDataPoolRelease_run holds inside absent
  have run : (do
      connDataPoolRelease index
      setMember index new : PoolM Unit) pool =
        .ok () { pool with
          pool := pool.pool.set index new, freeI := pool.freeI + 1, free := (idle ++ [index]) ++ behind } :=
    bind_ok released _
  obtain ⟨others, before, after⟩ := flatMap_set found new
  have oldFds : member.fds = [] := by
    rw [PoolMember.fds, if_neg]
    omega
  have newFds : new.fds = [] := by
    rw [PoolMember.fds, if_neg]
    simp [new]
  rw [oldFds] at before
  rw [newFds] at after
  have length := holds.size
  rw [holds.free, List.length_append, List.length_cons] at length
  refine ⟨_, run, List.length_set, idle ++ [index], behind,
    { holds with
      free := rfl
      freeI := ?_
      size := ?_
      nodup := ?_
      idle_iff := ?_
      assigned := ?_
      members := fun other mem => (mem_set_member mem).elim (holds.members other) fun here => here ▸ Or.inl rests
      owners := holds.owners.trans ((before.trans after.symm).append_left _) }⟩
  · dsimp only
    rw [holds.freeI, List.length_append, List.length_singleton]
    omega
  · rw [List.length_append, List.length_append, List.length_singleton, List.length_set, ← length]
    omega
  · refine List.nodup_append.mpr ⟨holds.nodup, List.nodup_singleton _, ?_⟩
    rintro other mem _ single rfl
    rw [List.mem_singleton.mp single] at mem
    exact absent mem
  · intro other
    rw [List.mem_append, List.mem_singleton, holds.idle_iff other, ConnDataPool.Idle, ConnDataPool.Idle]
    dsimp only
    rw [getElem?_set_member found]
    by_cases here : other = index
    · rw [if_pos here, here]
      exact iff_of_true (Or.inr rfl) ⟨⟨new, rfl, rests⟩, own⟩
    · rw [if_neg here]
      exact or_iff_left here
  · intro ptr fd there
    obtain ⟨other, here, fine⟩ := holds.assigned ptr fd there
    have different : ptr ≠ index := by
      rintro rfl
      exact own fd there
    refine ⟨other, ?_, fine⟩
    dsimp only
    rw [getElem?_set_member found, if_neg different]
    exact here

/-- Every step of a thread leaves the pool in order. -/
theorem PoolStep.run_holds (holds : pool.Holds idle rest) (step : PoolStep) : KeepsMembers step.run pool := by
  cases step with
  | accept fd => exact accept_holds holds fd
  | take => exact take_holds holds
  | assign => exact assign_holds holds
  | refuse => exact refuse_holds holds
  | close index => exact close_holds holds index
  | release index => exact release_holds holds index
  | start index =>
      refine stepMember_holds holds fun member found stage => setMember_holds holds found ?_ ?_ ?_
      · simp [PoolMember.Rests, stage]
      · simpa [PoolMember.Rests, PoolMember.Busy, stage] using holds.members member (List.mem_of_getElem? found)
      · simp [PoolMember.fds, stage]
  | wake index =>
      refine stepMember_holds holds fun member found stage => ?_
      by_cases low : member.fd < 0
      · have stays : (if member.fd < 0 then pure () else setMember index { member with stage := .serving } : PoolM Unit) =
            pure () := if_pos low
        exact ⟨pool, by rw [stays]; rfl, rfl, idle, rest, holds⟩
      · have goes : (if member.fd < 0 then pure () else setMember index { member with stage := .serving } : PoolM Unit) =
            setMember index { member with stage := .serving } := if_neg low
        rw [goes]
        refine setMember_holds holds found (iff_of_false (PoolMember.not_rests (by simp)) ?_) (Or.inr (Or.inl ?_)) ?_
        · rintro ⟨none, _⟩
          omega
        · exact ⟨not_lt.mp low, by simp⟩
        · simp [PoolMember.fds, stage]
  | clear index =>
      refine stepMember_holds holds fun member found stage => setMember_holds holds found ?_ (Or.inr (Or.inr ⟨rfl, rfl⟩)) ?_
      · exact iff_of_false (PoolMember.not_rests (by simp)) (PoolMember.not_rests (by simp [stage]))
      · simp [PoolMember.fds, stage]
  | wait index =>
      refine stepMember_holds holds fun member found stage => ?_
      have none : member.fd = -1 := by
        simpa [PoolMember.Rests, PoolMember.Busy, stage] using holds.members member (List.mem_of_getElem? found)
      refine setMember_holds holds found (by simp [PoolMember.Rests, stage]) (Or.inl ⟨none, by simp⟩) ?_
      simp [PoolMember.fds, stage, none]

theorem runPoolSteps_holds (steps : List PoolStep) :
    ∀ {pool : ConnDataPool} {idle rest : List Nat}, pool.Holds idle rest → KeepsMembers (runPoolSteps steps) pool := by
  induction steps with
  | nil => exact fun holds => ⟨_, rfl, rfl, _, _, holds⟩
  | cons step steps ih =>
      intro pool idle rest holds
      obtain ⟨middle, run, length, _, _, still⟩ := step.run_holds holds
      obtain ⟨after, more, same, last⟩ := ih still
      exact ⟨after, (bind_ok run _).trans more, same.trans length, last⟩

end

/-- All members are idle when the pool has been made. -/
theorem connDataPoolInit_holds (flags : List Bool) :
    (connDataPoolInit flags).Holds (List.range flags.length) [] where
  free := (List.append_nil _).symm
  freeI := by rw [List.length_range]; rfl
  size := by simp [connDataPoolInit]
  nodup := List.nodup_range
  idle_iff := by
    intro index
    rw [List.mem_range]
    constructor
    · intro inside
      refine ⟨⟨⟨-1, flags[index], .starting⟩, ?_, rfl, by simp⟩, fun _ there => by cases there⟩
      simp [connDataPoolInit, inside]
    · rintro ⟨⟨member, found, _⟩, _⟩
      have inside := (List.getElem?_eq_some_iff.mp found).1
      simpa [connDataPoolInit] using inside
  assigned := fun _ _ there => by cases there
  members := by
    intro member mem
    obtain ⟨flag, _, rfl⟩ := List.mem_map.mp mem
    exact Or.inl ⟨rfl, by simp⟩
  owners := by
    have none : (connDataPoolInit flags).pool.flatMap PoolMember.fds = [] := by
      rw [List.flatMap_eq_nil_iff]
      intro member mem
      obtain ⟨flag, _, rfl⟩ := List.mem_map.mp mem
      rfl
    rw [none]
    exact List.Perm.nil
  distinct := List.nodup_nil
  valid := fun _ mem => by cases mem

/-- In every order of the steps no thread leaves the arrays, each descriptor that is open has one owner, and a connection
is refused only when no member is idle. -/
theorem connDataPool_safe (flags : List Bool) (steps : List PoolStep) :
    ∃ after, runPoolSteps steps (connDataPoolInit flags) = .ok () after ∧ after.pool.length = flags.length ∧
      after.Safe := by
  obtain ⟨after, run, length, idle, rest, holds⟩ := runPoolSteps_holds steps (connDataPoolInit_holds flags)
  exact ⟨after, run, length.trans (List.length_map _), holds.safe⟩

/-- The second of two connections is refused by a pool of one member. -/
example : (runPoolSteps [.start 0, .accept 5, .take, .assign, .wake 0, .accept 6, .take]
    (connDataPoolInit [true])).passes (fun _ after => after.accept = .refusing 6 ∧ after.openFds = [6, 5]) = true := by
  decide

end Menoetius
