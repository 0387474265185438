import Menoetius.DiskStorage

/-
This file describes the calls on one open file of a store.
-/

namespace Menoetius
open FileImage

variable {store : DiskStorage} {handle : Handle}

@[simp] theorem file_withFile (store : DiskStorage) (file : File) (handle : Handle) :
    (store.withFile file handle).file handle = file := by
  cases handle <;> rfl

@[simp] theorem fd_withFile (store : DiskStorage) (file : File) :
    (store.withFile file .fd).fd = file := rfl

@[simp] theorem scratchFd_withFile_fd (store : DiskStorage) (file : File) :
    (store.withFile file .fd).scratchFd = store.scratchFd := rfl

@[simp] theorem fd_withFile_scratchFd (store : DiskStorage) (file : File) :
    (store.withFile file .scratchFd).fd = store.fd := rfl

@[simp] theorem scratchFd_withFile (store : DiskStorage) (file : File) :
    (store.withFile file .scratchFd).scratchFd = file := rfl

@[simp] theorem eofOffset_withFile (store : DiskStorage) (file : File) (handle : Handle) :
    (store.withFile file handle).eofOffset = store.eofOffset := by
  cases handle <;> rfl

@[simp] theorem nextFreeBlock_withFile (store : DiskStorage) (file : File) (handle : Handle) :
    (store.withFile file handle).nextFreeBlock = store.nextFreeBlock := by
  cases handle <;> rfl

@[simp] theorem numBeforeCrash_withFile (store : DiskStorage) (file : File) (handle : Handle) :
    (store.withFile file handle).numBeforeCrash = store.numBeforeCrash := by
  cases handle <;> rfl

@[simp] theorem withFile_withFile (store : DiskStorage) (first second : File) (handle : Handle) :
    (store.withFile first handle).withFile second handle = store.withFile second handle := by
  cases handle <;> rfl

theorem lseek_run (offset : Nat) (whence : Whence)
    (inside : lseekTarget (store.file handle) offset whence < offsetLimit) :
    lseek handle offset whence store =
      .ok (some (lseekTarget (store.file handle) offset whence))
        (store.withFile ⟨(store.file handle).bytes, lseekTarget (store.file handle) offset whence⟩
          handle) := by
  unfold lseek
  rw [EStateM.bind_ok (EStateM.get_apply store)]
  simp only [if_pos inside]
  rfl

theorem mustLseek_run (offset : Nat) (whence : Whence)
    (inside : lseekTarget (store.file handle) offset whence < offsetLimit) :
    mustLseek handle offset whence store =
      .ok (lseekTarget (store.file handle) offset whence)
        (store.withFile ⟨(store.file handle).bytes, lseekTarget (store.file handle) offset whence⟩
          handle) := by
  unfold mustLseek
  rw [EStateM.bind_ok (lseek_run offset whence inside)]
  rfl

/-- A seek that does not fit stops the process. -/
theorem mustLseek_limit (offset : Nat) (whence : Whence)
    (beyond : ¬ lseekTarget (store.file handle) offset whence < offsetLimit) :
    mustLseek handle offset whence store = .error (.abort .lseek) store := by
  have none : lseek handle offset whence store = .ok none store := by
    unfold lseek
    rw [EStateM.bind_ok (EStateM.get_apply store)]
    simp only [if_neg beyond]
    rfl
  unfold mustLseek
  rw [EStateM.bind_ok none]
  rfl

theorem read_run (count : Nat) :
    read handle count store =
      .ok (readAt (store.file handle).bytes (store.file handle).pos count)
        (store.withFile ⟨(store.file handle).bytes, (store.file handle).pos +
          (readAt (store.file handle).bytes (store.file handle).pos count).length⟩ handle) := rfl

theorem write_run (data : List UInt8)
    (room : (store.file handle).pos + data.length < offsetLimit) :
    write handle data store =
      .ok () (store.withFile ⟨writeAt (store.file handle).bytes (store.file handle).pos data,
        (store.file handle).pos + data.length⟩ handle) := by
  unfold write
  rw [EStateM.bind_ok (EStateM.get_apply store), require_bind room]
  rfl

/-- Without a crash test every byte is written. -/
theorem mustWrite_run (data : List UInt8) (quiet : store.numBeforeCrash = none)
    (room : (store.file handle).pos + data.length < offsetLimit) :
    mustWrite handle data store =
      .ok () (store.withFile ⟨writeAt (store.file handle).bytes (store.file handle).pos data,
        (store.file handle).pos + data.length⟩ handle) := by
  unfold mustWrite
  by_cases empty : data = []
  · subst empty
    simp only [if_true, EStateM.pure_apply, writeAt_nil, List.length_nil, Nat.add_zero]
    cases handle <;> rfl
  · rw [if_neg empty]
    unfold maybeWrite
    rw [EStateM.bind_ok (EStateM.get_apply store)]
    simp only [quiet]
    exact write_run data room

/-- A write beyond the largest file stops the process. -/
theorem mustWrite_full (data : List UInt8) (some : data ≠ []) (quiet : store.numBeforeCrash = none)
    (full : ¬ (store.file handle).pos + data.length < offsetLimit) :
    mustWrite handle data store = .error (.abort .fileTooLarge) store := by
  unfold mustWrite
  rw [if_neg some]
  unfold maybeWrite
  rw [EStateM.bind_ok (EStateM.get_apply store)]
  simp only [quiet]
  unfold write
  rw [EStateM.bind_ok (EStateM.get_apply store)]
  apply EStateM.bind_error
  rw [require_apply, if_neg full]

/-- A crash test that is not yet due counts the bytes. -/
theorem mustWrite_pass (data : List UInt8) (count : Nat) (armed : store.numBeforeCrash = some count)
    (some : data ≠ []) (below : data.length < count)
    (room : (store.file handle).pos + data.length < offsetLimit) :
    mustWrite handle data store =
      .ok () (({ store with numBeforeCrash := Option.some (count - data.length) } : DiskStorage).withFile
        ⟨writeAt (store.file handle).bytes (store.file handle).pos data,
          (store.file handle).pos + data.length⟩ handle) := by
  have same : ({ store with numBeforeCrash := Option.some (count - data.length) } : DiskStorage).file
      handle = store.file handle := by cases handle <;> rfl
  unfold mustWrite
  rw [if_neg some]
  unfold maybeWrite
  rw [EStateM.bind_ok (EStateM.get_apply store)]
  simp only [armed, if_pos below]
  rw [EStateM.bind_ok (EStateM.modify_apply _ _), write_run data (by rw [same]; exact room), same]

/-- A crash test that is due writes its bytes and stops the process. -/
theorem mustWrite_crash (data : List UInt8) (count : Nat)
    (armed : store.numBeforeCrash = some count) (some : data ≠ []) (due : count ≤ data.length)
    (room : (store.file handle).pos + data.length < offsetLimit) :
    mustWrite handle data store =
      .error (.abort .crashTest) (store.withFile
        ⟨writeAt (store.file handle).bytes (store.file handle).pos (data.take count),
          (store.file handle).pos + count⟩ handle) := by
  have length : (data.take count).length = count := by
    rw [List.length_take, Nat.min_eq_left due]
  unfold mustWrite
  rw [if_neg some]
  unfold maybeWrite
  rw [EStateM.bind_ok (EStateM.get_apply store)]
  simp only [armed, if_neg (Nat.not_lt.mpr due)]
  rw [EStateM.bind_ok (write_run (data.take count) (by omega)), length]
  rfl

/-- The fields that a call on one file keeps. A store without a crash test stays without one. -/
structure SameBooks (before after : DiskStorage) : Prop where
  eofOffset : after.eofOffset = before.eofOffset
  nextFreeBlock : after.nextFreeBlock = before.nextFreeBlock
  quiet : before.numBeforeCrash = none → after.numBeforeCrash = none

theorem SameBooks.refl (store : DiskStorage) : SameBooks store store := ⟨rfl, rfl, id⟩

theorem SameBooks.trans {first second third : DiskStorage} (start : SameBooks first second)
    (rest : SameBooks second third) : SameBooks first third :=
  ⟨rest.eofOffset.trans start.eofOffset, rest.nextFreeBlock.trans start.nextFreeBlock,
    fun quiet => rest.quiet (start.quiet quiet)⟩

/-- Only this file has changed. -/
structure Updates (before after : DiskStorage) (handle : Handle) (file : File) : Prop extends
    SameBooks before after where
  changed : after.file handle = file
  kept : ∀ other, other ≠ handle → after.file other = before.file other

theorem updates_withFile (store : DiskStorage) (file : File) (handle : Handle) :
    Updates store (store.withFile file handle) handle file where
  eofOffset := by simp
  nextFreeBlock := by simp
  quiet quiet := by simpa using quiet
  changed := by simp
  kept other distinct := by
    cases handle <;> cases other <;> first | rfl | exact absurd rfl distinct

/-- A stop of the crash test. The condition is on the state that the process leaves behind. -/
def Crashed (store : DiskStorage) (left : DiskStorage → Prop) (failure : Failure)
    (after : DiskStorage) : Prop :=
  failure = .abort .crashTest ∧ store.numBeforeCrash ≠ none ∧ left after

/-- A write counts its bytes against the crash test, or stops after the bytes that are left. -/
theorem mustWrite_counts (data : List UInt8) (some : data ≠ [])
    (room : (store.file handle).pos + data.length < offsetLimit) :
    (mustWrite handle data).Ends store
      (fun _ after => Updates store after handle
          ⟨writeAt (store.file handle).bytes (store.file handle).pos data,
            (store.file handle).pos + data.length⟩ ∧
        ∀ count, store.numBeforeCrash = Option.some count →
          data.length < count ∧ after.numBeforeCrash = Option.some (count - data.length))
      (fun failure after => failure = .abort .crashTest ∧
        ∃ count, store.numBeforeCrash = Option.some count ∧ count ≤ data.length ∧
          Updates store after handle
            ⟨writeAt (store.file handle).bytes (store.file handle).pos (data.take count),
              (store.file handle).pos + count⟩) := by
  cases budget : store.numBeforeCrash with
  | none =>
      refine EStateM.ends_of_ok (mustWrite_run data budget room) ⟨updates_withFile _ _ _, ?_⟩
      intro count armed
      cases armed
  | some count =>
      by_cases below : data.length < count
      · have done := mustWrite_pass data count budget some below room
        have only := updates_withFile ({ store with numBeforeCrash := Option.some (count - data.length) } :
          DiskStorage) ⟨writeAt (store.file handle).bytes (store.file handle).pos data,
            (store.file handle).pos + data.length⟩ handle
        refine EStateM.ends_of_ok done ⟨⟨⟨only.eofOffset, only.nextFreeBlock, ?_⟩, only.changed, ?_⟩, ?_⟩
        · intro quiet
          rw [quiet] at budget
          cases budget
        · intro other distinct
          rw [only.kept other distinct]
          cases other <;> rfl
        · intro again armed
          obtain rfl := Option.some.inj armed
          exact ⟨below, by simp⟩
      · exact EStateM.ends_of_error (mustWrite_crash data count budget some (by omega) room)
          ⟨rfl, count, rfl, by omega, updates_withFile _ _ _⟩

/-- Every write is complete, or the process has stopped after a part of it. -/
theorem mustWrite_ends (data : List UInt8)
    (room : (store.file handle).pos + data.length < offsetLimit) :
    (mustWrite handle data).Ends store
      (fun _ after => Updates store after handle
        ⟨writeAt (store.file handle).bytes (store.file handle).pos data,
          (store.file handle).pos + data.length⟩)
      (Crashed store fun after => ∃ count, Updates store after handle
        ⟨writeAt (store.file handle).bytes (store.file handle).pos (data.take count),
          (store.file handle).pos + count⟩) := by
  by_cases empty : data = []
  · subst empty
    have done : mustWrite handle [] store = .ok () store := by rw [mustWrite, if_pos rfl]; rfl
    exact EStateM.ends_of_ok done ⟨SameBooks.refl store, by simp, fun _ _ => rfl⟩
  · apply (mustWrite_counts data empty room).mono
    · rintro _ after ⟨updates, _⟩
      exact updates
    · rintro failure after ⟨crash, count, armed, _, updates⟩
      exact ⟨crash, by rw [armed]; simp, count, updates⟩

end Menoetius
