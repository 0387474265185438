import Menoetius.DiskLog

/-
This file opens a store on files that an earlier process has left.
-/

namespace Menoetius
open FileImage LittleEndian

variable {store origin : DiskStorage}

/-- Recovery ends with the old or with the new image, from every state that a stopped logged write
or a stopped recovery leaves. -/
theorem recoverScratch_recoverable (main : List UInt8) (offset : Nat) (buf image rest : List UInt8)
    (bound : Nat) (holds : Holds origin store image rest)
    (state : Recoverable main offset buf image rest) (inside : offset + buf.length ≤ main.length)
    (short : main.length < offsetLimit) (small : rest.length ≤ bound) (bounded : bound + 8 < offsetLimit)
    (wide : 16 ≤ bound) :
    (resultCode diskStorageRecoverScratch).Ends store
      (fun _ after => ∃ final left, (final = main ∨ final = writeAt main offset buf) ∧
        Holds origin after final left ∧ ScratchQuiet final left ∧ left.length ≤ bound)
      (Crashed origin (LeftRecoverable main offset buf bound)) := by
  have length := writeAt_length main buf offset inside
  cases state with
  | before _ quiet =>
      apply (recoverScratch_quiet main rest bound holds quiet short small bounded wide).mono
      · rintro _ after ⟨left, held, calm, few⟩
        exact ⟨main, left, Or.inl rfl, held, calm, few⟩
      · rintro failure after ⟨crash, armed, left, held, calm, few⟩
        exact ⟨crash, armed, held.recoverable (.before _ calm) few⟩
  | after _ quiet =>
      apply (recoverScratch_quiet _ rest bound holds quiet (by omega) small bounded wide).mono
      · rintro _ after ⟨left, held, calm, few⟩
        exact ⟨_, left, Or.inr rfl, held, calm, few⟩
      · rintro failure after ⟨crash, armed, left, held, calm, few⟩
        exact ⟨crash, armed, held.recoverable (.after _ calm) few⟩
  | logged _ _ safe found same covered =>
      have calm : ScratchQuiet (writeAt main offset buf) rest := by
        refine ⟨safe, fun other data again => ?_⟩
        rw [found] at again
        obtain ⟨rfl, rfl⟩ := Prod.mk.inj (Option.some.inj again)
        exact ⟨by omega, writeAt_twice main _ _ inside⟩
      have teared : ∀ count, count ≤ 16 → (tear count rest).length ≤ bound := by
        intro count few
        rw [tear, List.length_append, fullBytes_length, List.length_drop]
        omega
      obtain ⟨middle, held, branch⟩ := recoverScratch_cases image rest holds (by omega)
      rw [found] at branch
      apply resultCode_ends
      apply EStateM.ends_of_eq branch
      apply (replayRecord_ends offset buf image rest held (by omega)).mono
      · intro _ after final
        rw [covered] at final
        exact ⟨_, _, Or.inr rfl, final, calm.tear 16, teared 16 le_rfl⟩
      · rintro failure after ⟨rfl, armed, ⟨count, final⟩ | ⟨count, few, final⟩⟩
        · refine ⟨rfl, armed, final.recoverable (.logged _ _ safe found ?_ ?_) small⟩
          · rw [writeAt_length _ _ _ (by rw [List.length_take]; omega), same]
          · rw [writeAt_take image buf offset count (by omega), covered]
        · rw [covered] at final
          exact ⟨rfl, armed, final.recoverable (.after _ (calm.tear count)) (teared count few)⟩

/-- The main file of a store starts with the version and the reserved bytes. -/
structure MainHeader (main : List UInt8) : Prop where
  version : main.take 8 = versionBytes
  reserved : storageInitialReserved ≤ main.length
  short : main.length < offsetLimit

/-- Opening reads the header of the main file and then recovers. -/
theorem diskStorageOpen_eq (store : DiskStorage) (header : MainHeader store.fd.bytes) :
    ∃ middle, diskStorageOpen store = (resultCode diskStorageRecoverScratch >>= fun _ => pure ()) middle ∧
      middle.fd.bytes = store.fd.bytes ∧ middle.scratchFd.bytes = store.scratchFd.bytes ∧
      middle.eofOffset = store.fd.bytes.length ∧ middle.nextFreeBlock = (fun _ => 0) ∧
      middle.numBeforeCrash = store.numBeforeCrash := by
  have reserved := header.reserved
  have short := header.short
  unfold storageInitialReserved at reserved
  unfold diskStorageOpen
  rw [EStateM.bind_ok (EStateM.modify_apply _ _)]
  generalize fresh : ({ store with
      fd := ⟨store.fd.bytes, 0⟩, scratchFd := ⟨store.scratchFd.bytes, 0⟩, eofOffset := 0
      nextFreeBlock := fun _ => 0 } : DiskStorage) = start
  have bytes : (start.file .fd).bytes = store.fd.bytes := by rw [← fresh]; rfl
  have target : lseekTarget (start.file .fd) 0 .fromEnd = store.fd.bytes.length := by
    rw [lseekTarget, bytes, Nat.add_zero]
  have seekEnd := @lseek_run start .fd 0 .fromEnd (by rw [target]; exact short)
  rw [target, bytes] at seekEnd
  rw [EStateM.bind_ok seekEnd]
  dsimp only
  have seekStart := @lseek_run (start.withFile ⟨store.fd.bytes, store.fd.bytes.length⟩ .fd) .fd 0 .set
    (show 0 < offsetLimit by decide)
  rw [EStateM.bind_ok seekStart, file_withFile, withFile_withFile, lseekTarget]
  have reading := @read_run (start.withFile ⟨store.fd.bytes, 0⟩ .fd) .fd 8
  have data : readAt store.fd.bytes 0 8 = versionBytes := by
    rw [readAt, List.drop_zero, header.version]
  rw [file_withFile, withFile_withFile, data] at reading
  have known : valueOf versionBytes = version := by decide
  rw [EStateM.bind_ok reading, if_neg (by decide), if_neg (by decide), if_neg (not_not.mpr known)]
  have again : lseekTarget ((start.withFile ⟨store.fd.bytes, 0 + versionBytes.length⟩ .fd).file .fd) 0
      .fromEnd = store.fd.bytes.length := by
    rw [file_withFile, lseekTarget, Nat.add_zero]
  rw [EStateM.bind_ok (mustLseek_run 0 .fromEnd (by rw [again]; exact short)), again,
    EStateM.bind_ok (EStateM.modify_apply _ _), require_bind header.reserved]
  refine ⟨_, rfl, ?_⟩
  rw [← fresh]
  exact ⟨rfl, rfl, rfl, rfl, rfl⟩

/-- A freshly opened store: its files are quiet and no block is known to be free. -/
structure Opened (before after : DiskStorage) (main rest : List UInt8) : Prop where
  bytes : after.fd.bytes = main
  scratch : after.scratchFd.bytes = versionBytes ++ rest
  calm : ScratchQuiet main rest
  eofOffset : after.eofOffset = before.fd.bytes.length
  nextFreeBlock : after.nextFreeBlock = fun _ => 0
  quiet : before.numBeforeCrash = none → after.numBeforeCrash = none

/-- Opening the files that a stopped logged write or a stopped recovery leaves. -/
theorem open_recoverable (main : List UInt8) (offset : Nat) (buf : List UInt8) (bound : Nat)
    (header : MainHeader store.fd.bytes) (left : LeftRecoverable main offset buf bound store)
    (inside : offset + buf.length ≤ main.length) (short : main.length < offsetLimit)
    (bounded : bound + 8 < offsetLimit) (wide : 16 ≤ bound) :
    diskStorageOpen.Ends store
      (fun _ after => ∃ final rest, (final = main ∨ final = writeAt main offset buf) ∧
        Opened store after final rest ∧ rest.length ≤ bound)
      (Crashed store (LeftRecoverable main offset buf bound)) := by
  obtain ⟨rest, scratch, state, small⟩ := left
  obtain ⟨middle, same, bytes, kept, eof, free, budget⟩ := diskStorageOpen_eq store header
  have holds : Holds middle middle store.fd.bytes rest := ⟨SameBooks.refl middle, bytes, kept.trans scratch⟩
  have recovered := recoverScratch_recoverable main offset buf _ rest bound holds state inside short
    small bounded wide
  apply EStateM.ends_of_eq same
  apply EStateM.Ends.bind (recovered.mono (fun _ _ done => done) ?_)
  · rintro _ after ⟨final, again, which, held, calm, few⟩
    refine EStateM.ends_of_ok rfl ⟨final, again, which, ⟨held.main, held.rest, calm, ?_, ?_, ?_⟩, few⟩
    · exact held.eofOffset.trans eof
    · exact held.nextFreeBlock.trans free
    · intro quiet
      exact held.quiet (budget.trans quiet)
  · rintro failure after ⟨crash, armed, torn⟩
    exact ⟨crash, fun quiet => armed (budget.trans quiet), torn⟩

/-- Opening the quiet files of a store. -/
theorem open_quiet (main rest : List UInt8) (bound : Nat) (bytes : store.fd.bytes = main)
    (header : MainHeader main) (scratch : store.scratchFd.bytes = versionBytes ++ rest)
    (calm : ScratchQuiet main rest) (small : rest.length ≤ bound) (bounded : bound + 8 < offsetLimit)
    (wide : 16 ≤ bound) (quiet : store.numBeforeCrash = none) :
    ∃ after left, diskStorageOpen store = .ok () after ∧ Opened store after main left ∧
      left.length ≤ bound := by
  have left : LeftRecoverable main 0 [] bound store := by
    refine ⟨rest, scratch, ?_, small⟩
    rw [bytes]
    exact .before _ calm
  obtain ⟨_, after, run, final, again, which, opened, few⟩ :=
    (open_recoverable main 0 [] bound (by rwa [bytes]) left (by simp) header.short bounded wide).returns
      fun failure after crashed => crashed.2.1 quiet
  obtain rfl : final = main := by simpa using which
  exact ⟨after, again, run, opened, few⟩

end Menoetius
