import Menoetius.Globals

/-
This file models the pool of connections of `conn_handler.c`, and the threads of the server that share it.
-/

namespace Menoetius
open EStateM

/-- Where the thread of a member stands in `conn_handler_thread_run`. From the end of the wait to the next wait the thread
holds the lock of the member. -/
inductive WorkerStage where
  | starting
  | waiting
  | serving
  | closed
  | cleared
  | released
  deriving DecidableEq, Repr

/-- What a `struct conn_data` tells of its connection. The descriptor is -1 while there is none. -/
structure PoolMember where
  fd : Int
  hasValidConfig : Bool
  stage : WorkerStage
  deriving DecidableEq, Repr

/-- Where the loop of the server stands that accepts connections. A pointer to a member is its number. -/
inductive AcceptStage where
  | accepting
  | accepted (fd : Int)
  | assigning (ptr : Nat) (fd : Int)
  | refusing (fd : Int)
  deriving DecidableEq, Repr

/-- The pool, the loop that accepts connections, and the descriptors that the process has open for connections. -/
structure ConnDataPool where
  pool : List PoolMember
  free : List Nat
  freeI : Int
  accept : AcceptStage
  openFds : List Int
  deriving DecidableEq, Repr

abbrev PoolM := EStateM Failure ConnDataPool

/-- The flags of the members are not set yet. -/
def connDataPoolInit (flags : List Bool) : ConnDataPool where
  pool := flags.map fun hasValidConfig => { fd := -1, hasValidConfig, stage := .starting }
  free := List.range flags.length
  freeI := flags.length - 1
  accept := .accepting
  openFds := []

/-- The body runs under the lock of the pool. An entry outside the array is outside the memory of the model. -/
def connDataPoolGet : PoolM (Option Nat) := do
  let pool ← get
  if pool.freeI < 0 then pure none
  else
    match pool.free[pool.freeI.toNat]? with
    | none => throw (.abort .memory)
    | some ptr => do
        set { pool with freeI := pool.freeI - 1 }
        pure (some ptr)

/-- This one runs under the same lock. -/
def connDataPoolRelease (ptr : Nat) : PoolM Unit := do
  modify fun pool => { pool with freeI := pool.freeI + 1 }
  let pool ← get
  require (0 ≤ pool.freeI ∧ pool.freeI < pool.free.length) .memory
  set { pool with free := pool.free.set pool.freeI.toNat ptr }

/-- The thread of a member holds its lock. -/
def WorkerStage.locks : WorkerStage → Bool
  | .starting => false
  | .waiting => false
  | _ => true

/-- One step of a thread: the loop of the server, or the thread of a member. The sections under a lock are one step. -/
inductive PoolStep where
  | accept (fd : Int)
  | take
  | assign
  | refuse
  | start (index : Nat)
  | wake (index : Nat)
  | close (index : Nat)
  | clear (index : Nat)
  | release (index : Nat)
  | wait (index : Nat)
  deriving Repr

/-- A step of the thread of a member, if it stands there. -/
def stepMember (index : Nat) (stage : WorkerStage) (change : PoolMember → PoolM Unit) : PoolM Unit := do
  let pool ← get
  match pool.pool[index]? with
  | none => pure ()
  | some member => if member.stage = stage then change member else pure ()

def setMember (index : Nat) (member : PoolMember) : PoolM Unit :=
  modify fun pool => { pool with pool := pool.pool.set index member }

/-- A thread that does not stand at the step, or waits for a lock, stays where it is. The kernel returns a descriptor
that is not open. -/
def PoolStep.run : PoolStep → PoolM Unit
  | .accept fd => modify fun pool =>
      if pool.accept = .accepting ∧ 0 ≤ fd ∧ fd ∉ pool.openFds then
        { pool with accept := .accepted fd, openFds := fd :: pool.openFds }
      else pool
  | .take => do
      let pool ← get
      match pool.accept with
      | .accepted fd => do
          match ← connDataPoolGet with
          | none => modify fun pool => { pool with accept := .refusing fd }
          | some ptr => modify fun pool => { pool with accept := .assigning ptr fd }
      | _ => pure ()
  | .assign => do
      let pool ← get
      match pool.accept with
      | .assigning ptr fd =>
          match pool.pool[ptr]? with
          | none => throw (.abort .memory)
          | some member =>
              if member.stage.locks then pure ()
              else do
                setMember ptr { member with fd := fd, hasValidConfig := false }
                modify fun pool => { pool with accept := .accepting }
      | _ => pure ()
  | .refuse => modify fun pool =>
      match pool.accept with
      | .refusing fd => { pool with accept := .accepting, openFds := pool.openFds.erase fd }
      | _ => pool
  | .start index => stepMember index .starting fun member => setMember index { member with stage := .waiting }
  | .wake index => stepMember index .waiting fun member =>
      if member.fd < 0 then pure () else setMember index { member with stage := .serving }
  | .close index => stepMember index .serving fun member => do
      modify fun pool => { pool with openFds := pool.openFds.erase member.fd }
      setMember index { member with stage := .closed }
  | .clear index => stepMember index .closed fun member => setMember index { member with fd := -1, stage := .cleared }
  | .release index => stepMember index .cleared fun member => do
      connDataPoolRelease index
      setMember index { member with stage := .released }
  | .wait index => stepMember index .released fun member => setMember index { member with stage := .waiting }

/-- The steps of the threads in any order. -/
def runPoolSteps (steps : List PoolStep) : PoolM Unit := steps.forM PoolStep.run

/-- The descriptor that a member has to serve and to close. -/
def PoolMember.fds (member : PoolMember) : List Int :=
  if 0 ≤ member.fd ∧ member.stage ∈ [.starting, .waiting, .serving] then [member.fd] else []

/-- The descriptor that the loop of the server has not passed on yet. -/
def AcceptStage.fds : AcceptStage → List Int
  | .accepting => []
  | .accepted fd => [fd]
  | .assigning _ fd => [fd]
  | .refusing fd => [fd]

/-- A member without a connection, whose thread waits or is on its way to the wait. -/
def PoolMember.Rests (member : PoolMember) : Prop := member.fd = -1 ∧ member.stage ∈ [.starting, .waiting, .released]

instance (member : PoolMember) : Decidable member.Rests := inferInstanceAs (Decidable (_ ∧ _))

/-- A member that the loop of the server can take. -/
def ConnDataPool.Idle (pool : ConnDataPool) (index : Nat) : Prop :=
  (∃ member, pool.pool[index]? = some member ∧ member.Rests) ∧ ∀ fd, pool.accept ≠ .assigning index fd

end Menoetius
