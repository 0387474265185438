import Menoetius.DiskScratch

/-
This file runs a logged write and the recovery, byte by byte.
-/

namespace Menoetius
open FileImage LittleEndian

variable {store origin : DiskStorage} {handle : Handle} {α : Type}
variable {post : α → DiskStorage → Prop} {left : DiskStorage → Prop}

theorem mustLseek_then {next : Nat → DiskM α} {stop : Failure → DiskStorage → Prop} (offset : Nat)
    (inside : offset < offsetLimit)
    (rest : (next offset).Ends (store.withFile ⟨(store.file handle).bytes, offset⟩ handle) post stop) :
    (mustLseek handle offset .set >>= next).Ends store post stop := by
  exact EStateM.ends_bind_ok (mustLseek_run offset .set inside) rest

/-- The rule for one write of a sequence. -/
theorem mustWrite_then {next : Unit → DiskM α} (data : List UInt8) (books : SameBooks origin store)
    (room : (store.file handle).pos + data.length < offsetLimit)
    (torn : ∀ after count, Updates store after handle
      ⟨writeAt (store.file handle).bytes (store.file handle).pos (data.take count),
        (store.file handle).pos + count⟩ → left after)
    (rest : ∀ after, Updates store after handle
      ⟨writeAt (store.file handle).bytes (store.file handle).pos data,
        (store.file handle).pos + data.length⟩ → (next ()).Ends after post (Crashed origin left)) :
    (mustWrite handle data >>= next).Ends store post (Crashed origin left) := by
  have first : (mustWrite handle data).Ends store (fun _ after => Updates store after handle
      ⟨writeAt (store.file handle).bytes (store.file handle).pos data,
        (store.file handle).pos + data.length⟩) (Crashed origin left) := by
    apply (mustWrite_ends data room).mono
    · intro _ after updates
      exact updates
    · rintro failure after ⟨crash, armed, count, updates⟩
      exact ⟨crash, fun quiet => armed (books.quiet quiet), torn after count updates⟩
  exact first.bind fun _ after updates => rest after updates

/-- The rule for the last write of a sequence. -/
theorem mustWrite_last {post : Unit → DiskStorage → Prop} (data : List UInt8)
    (books : SameBooks origin store)
    (room : (store.file handle).pos + data.length < offsetLimit)
    (torn : ∀ after count, Updates store after handle
      ⟨writeAt (store.file handle).bytes (store.file handle).pos (data.take count),
        (store.file handle).pos + count⟩ → left after)
    (done : ∀ after, Updates store after handle
      ⟨writeAt (store.file handle).bytes (store.file handle).pos data,
        (store.file handle).pos + data.length⟩ → post () after) :
    (mustWrite handle data).Ends store post (Crashed origin left) := by
  apply (mustWrite_ends data room).mono
  · intro _ after updates
    exact done after updates
  · rintro failure after ⟨crash, armed, count, updates⟩
    exact ⟨crash, fun quiet => armed (books.quiet quiet), torn after count updates⟩

/-- The state of a store whose main file and scratch file hold these bytes. -/
structure Holds (origin store : DiskStorage) (main rest : List UInt8) : Prop extends
    SameBooks origin store where
  main : store.fd.bytes = main
  rest : store.scratchFd.bytes = versionBytes ++ rest

/-- A direct write reaches the main file, or stops after a part of it. -/
theorem writeBlockForReal_ends (offset : Nat) (buf main rest : List UInt8)
    (holds : Holds origin store main rest) (room : offset + buf.length < offsetLimit) :
    (diskStorageWriteBlockForReal offset buf).Ends store
      (fun _ after => Holds origin after (writeAt main offset buf) rest)
      (Crashed origin fun after => ∃ count, Holds origin after (writeAt main offset (buf.take count)) rest) := by
  have seek := updates_withFile store ⟨store.fd.bytes, offset⟩ .fd
  have books := holds.toSameBooks.trans seek.toSameBooks
  apply mustLseek_then offset (by omega)
  apply mustWrite_last buf books (by simpa using room)
  · intro after count updates
    refine ⟨count, books.trans updates.toSameBooks, ?_, ?_⟩
    · have changed := congrArg File.bytes updates.changed
      simpa [DiskStorage.file, holds.main] using changed
    · have kept := congrArg File.bytes (updates.kept .scratchFd (by decide))
      simpa [DiskStorage.file, holds.rest] using kept
  · intro after updates
    refine ⟨books.trans updates.toSameBooks, ?_, ?_⟩
    · have changed := congrArg File.bytes updates.changed
      simpa [DiskStorage.file, holds.main] using changed
    · have kept := congrArg File.bytes (updates.kept .scratchFd (by decide))
      simpa [DiskStorage.file, holds.rest] using kept

/-- The scratch descriptor stands behind the bytes that are already logged. -/
structure Logging (origin store : DiskStorage) (main done rest : List UInt8) : Prop extends
    Holds origin store main (cover done rest) where
  pos : store.scratchFd.pos = 8 + done.length

theorem writeAt_logged (done data rest : List UInt8) :
    writeAt (versionBytes ++ cover done rest) (8 + done.length) data =
      versionBytes ++ cover (done ++ data) rest := by
  have whole := writeAt_over (versionBytes ++ done) (rest.drop done.length) data
  rw [List.length_append, versionBytes_length] at whole
  rw [cover, ← List.append_assoc, whole, cover, List.length_append, List.drop_drop]
  simp only [List.append_assoc]

/-- The rule for one write to the log. -/
theorem log_then {next : Unit → DiskM α} (data main done rest : List UInt8)
    (logging : Logging origin store main done rest)
    (room : 8 + done.length + data.length < offsetLimit)
    (torn : ∀ after count, Holds origin after main (cover (done ++ data.take count) rest) → left after)
    (continued : ∀ after, Logging origin after main (done ++ data) rest →
      (next ()).Ends after post (Crashed origin left)) :
    (mustWrite .scratchFd data >>= next).Ends store post (Crashed origin left) := by
  have pos : (store.file .scratchFd).pos = 8 + done.length := logging.pos
  have bytes : (store.file .scratchFd).bytes = versionBytes ++ cover done rest := logging.rest
  apply mustWrite_then data logging.toSameBooks (by rw [pos]; exact room)
  · intro after count updates
    rw [pos, bytes, writeAt_logged] at updates
    refine torn after count ⟨logging.toSameBooks.trans updates.toSameBooks, ?_, ?_⟩
    · exact (congrArg File.bytes (updates.kept .fd (by decide))).trans logging.main
    · exact congrArg File.bytes updates.changed
  · intro after updates
    rw [pos, bytes, writeAt_logged] at updates
    refine continued after ⟨⟨logging.toSameBooks.trans updates.toSameBooks, ?_, ?_⟩, ?_⟩
    · exact (congrArg File.bytes (updates.kept .fd (by decide))).trans logging.main
    · exact congrArg File.bytes updates.changed
    · rw [List.length_append, ← Nat.add_assoc]
      exact congrArg File.pos updates.changed

/-- What a process that stops inside `disk_storage_write_scratch` leaves in the scratch file. -/
def ScratchTorn (offset : Nat) (buf rest : List UInt8) (torn : List UInt8) : Prop :=
  (∃ count, torn = cover ((loggedBytes buf).take count) rest) ∨
    ∃ count, count ≤ 16 ∧ torn = tornRecord count offset buf rest

theorem writeAt_header (count offset : Nat) (buf rest : List UInt8) :
    writeAt (versionBytes ++ cover (loggedBytes buf) rest) 8
        ((scratchHeader offset (diskStorageGetChecksum offset)).take count) =
      versionBytes ++ tornRecord (min count 16) offset buf rest := by
  have whole := writeAt_over versionBytes (cover (loggedBytes buf) rest)
    ((scratchHeader offset (diskStorageGetChecksum offset)).take count)
  rw [versionBytes_length] at whole
  have taken : (scratchHeader offset (diskStorageGetChecksum offset)).take count =
      (scratchHeader offset (diskStorageGetChecksum offset)).take (min count 16) := by
    rw [List.take_eq_take_min, scratchHeader_length]
  have after : (cover (loggedBytes buf) rest).drop (min count 16) =
      fullBytes (16 - min count 16) ++ recordTail buf rest := by
    have length : (loggedBytes buf).length = 24 + buf.length := by
      simp only [loggedBytes, List.length_append, fullBytes_length, bytesOf_length]
      omega
    rw [cover, length, loggedBytes, List.append_assoc, List.drop_append_of_le_length (by simp),
      fullBytes, List.drop_replicate, recordTail]
    simp only [fullBytes, List.append_assoc]
  rw [whole, List.length_take, scratchHeader_length, after, taken, tornRecord]

/-- A part of one write is a part of the whole sequence. -/
theorem take_written (done data more : List UInt8) (count : Nat) :
    done ++ data.take count = (done ++ (data ++ more)).take (done.length + min count data.length) := by
  rw [List.take_length_add_append, List.take_append_of_le_length (Nat.min_le_right _ _),
    ← List.take_eq_take_min]

/-- The scratch file holds the whole record, or the process has stopped inside it. -/
theorem writeScratch_ends (offset : Nat) (buf main rest : List UInt8)
    (holds : Holds origin store main rest) (room : 32 + buf.length < offsetLimit) :
    (diskStorageWriteScratch offset buf).Ends store
      (fun _ after => Holds origin after main (tornRecord 16 offset buf rest))
      (Crashed origin fun after => ∃ torn, ScratchTorn offset buf rest torn ∧
        Holds origin after main torn) := by
  have seek := updates_withFile store ⟨store.scratchFd.bytes, 8⟩ .scratchFd
  apply mustLseek_then 8 (by decide)
  rw [require_bind rfl, invalidHeader_eq]
  have begin : Logging origin (store.withFile ⟨store.scratchFd.bytes, 8⟩ .scratchFd) main [] rest :=
    ⟨⟨holds.toSameBooks.trans seek.toSameBooks, holds.main, holds.rest⟩, rfl⟩
  apply log_then _ main [] rest begin (by simp [offsetLimit])
  · intro after count holds
    exact ⟨_, Or.inl ⟨_, by rw [take_written [] _ (bytesOf 8 buf.length ++ buf)]; rfl⟩, holds⟩
  intro after logging
  rw [List.nil_append] at logging
  apply log_then _ main _ rest logging (by simp [offsetLimit])
  · intro after count holds
    exact ⟨_, Or.inl ⟨_, by rw [take_written _ _ buf]; rfl⟩, holds⟩
  intro after logging
  apply log_then _ main _ rest logging (by simp; omega)
  · intro after count holds
    refine ⟨_, Or.inl ⟨24 + min count buf.length, ?_⟩, holds⟩
    rw [take_written _ _ [], List.append_nil, List.append_assoc, List.length_append]
    rfl
  intro after logging
  rw [List.append_assoc] at logging
  have seek := updates_withFile after ⟨after.scratchFd.bytes, 8⟩ .scratchFd
  have books := logging.toSameBooks.trans seek.toSameBooks
  have bytes : after.scratchFd.bytes = versionBytes ++ cover (loggedBytes buf) rest := logging.rest
  apply mustLseek_then 8 (by decide)
  apply mustWrite_last _ books (by simp [offsetLimit])
  · intro final count updates
    rw [file_withFile] at updates
    refine ⟨_, Or.inr ⟨min count 16, by omega, rfl⟩, books.trans updates.toSameBooks, ?_, ?_⟩
    · exact (congrArg File.bytes (updates.kept .fd (by decide))).trans logging.main
    · rw [← writeAt_header, ← bytes]
      exact congrArg File.bytes updates.changed
  · intro final updates
    rw [file_withFile] at updates
    refine ⟨books.trans updates.toSameBooks, ?_, ?_⟩
    · exact (congrArg File.bytes (updates.kept .fd (by decide))).trans logging.main
    · have whole := writeAt_header 16 offset buf rest
      rw [List.take_of_length_le (by simp)] at whole
      rw [← show min 16 16 = 16 from rfl, ← whole, ← bytes]
      exact congrArg File.bytes updates.changed

/-- The states from which recovery produces the old or the new image of a logged write. -/
inductive Recoverable (main : List UInt8) (offset : Nat) (buf : List UInt8) :
    List UInt8 → List UInt8 → Prop
  | before (rest : List UInt8) (quiet : ScratchQuiet main rest) : Recoverable main offset buf main rest
  | logged (image rest : List UInt8) (safe : HeaderSafe rest)
      (found : scratchRecord rest = some (offset, buf)) (length : image.length = main.length)
      (covered : writeAt image offset buf = writeAt main offset buf) :
      Recoverable main offset buf image rest
  | after (rest : List UInt8) (quiet : ScratchQuiet (writeAt main offset buf) rest) :
      Recoverable main offset buf (writeAt main offset buf) rest

/-- A torn record is not accepted, or is the new record. -/
theorem recoverable_tornRecord (main : List UInt8) (count offset : Nat) (buf rest : List UInt8)
    (short : count ≤ 16) (fits : offset < 2 ^ 64) (bufFits : buf.length < 2 ^ 64) :
    Recoverable main offset buf main (tornRecord count offset buf rest) := by
  have safe := headerSafe_tornRecord count offset buf rest short fits
  cases found : scratchRecord (tornRecord count offset buf rest) with
  | none =>
      refine .before _ ⟨safe, fun other data accepted => ?_⟩
      rw [found] at accepted
      cases accepted
  | some record =>
      have same := scratchRecord_tornRecord count offset buf rest short fits bufFits found
      rw [same] at found
      exact .logged _ _ safe found rfl rfl

theorem cover_length (data rest : List UInt8) : (cover data rest).length = max data.length rest.length := by
  rw [cover, List.length_append, List.length_drop]
  omega

theorem ScratchTorn.length {offset : Nat} {buf rest torn : List UInt8}
    (state : ScratchTorn offset buf rest torn) :
    torn.length ≤ max rest.length (24 + buf.length) := by
  rcases state with ⟨count, rfl⟩ | ⟨count, short, rfl⟩
  · rw [cover_length, List.length_take, loggedBytes, List.length_append, List.length_append,
      fullBytes_length, bytesOf_length]
    omega
  · simp only [tornRecord, recordTail, List.length_append, List.length_take, scratchHeader_length,
      fullBytes_length, bytesOf_length, List.length_drop]
    omega

theorem writeAt_twice (main : List UInt8) (offset : Nat) (buf : List UInt8)
    (inside : offset + buf.length ≤ main.length) :
    writeAt (writeAt main offset buf) offset buf = writeAt main offset buf := by
  have twice := writeAt_take main buf offset buf.length inside
  rwa [List.take_length] at twice

theorem scratchQuiet_complete (main : List UInt8) (offset : Nat) (buf rest : List UInt8)
    (inside : offset + buf.length ≤ main.length) (short : main.length < offsetLimit) :
    ScratchQuiet (writeAt main offset buf) (tornRecord 16 offset buf rest) where
  safe := headerSafe_tornRecord 16 offset buf rest le_rfl (by unfold offsetLimit at short; omega)
  replay other data found := by
    unfold offsetLimit at short
    have same := scratchRecord_tornRecord 16 offset buf rest le_rfl (by omega) (by omega) found
    obtain ⟨rfl, rfl⟩ := Prod.mk.inj same
    rw [writeAt_length _ _ _ inside]
    exact ⟨inside, writeAt_twice main other data inside⟩

/-- The files that a process leaves when it stops inside a logged write or inside its recovery. -/
def LeftRecoverable (main : List UInt8) (offset : Nat) (buf : List UInt8) (bound : Nat)
    (after : DiskStorage) : Prop :=
  ∃ left, after.scratchFd.bytes = versionBytes ++ left ∧
    Recoverable main offset buf after.fd.bytes left ∧ left.length ≤ bound

theorem Holds.recoverable {main : List UInt8} {offset : Nat} {buf : List UInt8} {bound : Nat}
    {image rest : List UInt8} (holds : Holds origin store image rest)
    (state : Recoverable main offset buf image rest) (small : rest.length ≤ bound) :
    LeftRecoverable main offset buf bound store := by
  rw [← holds.main] at state
  exact ⟨rest, holds.rest, state, small⟩

/-- A logged write inside the main file. -/
theorem loggedWrite_ends (offset : Nat) (buf main rest : List UInt8) (bound : Nat)
    (holds : Holds origin store main rest) (quiet : ScratchQuiet main rest)
    (inside : offset + buf.length ≤ main.length) (short : main.length < offsetLimit)
    (room : 24 + buf.length ≤ bound) (small : rest.length ≤ bound) (bounded : bound + 8 < offsetLimit) :
    (do diskStorageWriteScratch offset buf; diskStorageWriteBlockForReal offset buf : DiskM Unit).Ends store
      (fun _ after => ∃ left, Holds origin after (writeAt main offset buf) left ∧
        ScratchQuiet (writeAt main offset buf) left ∧ left.length ≤ bound)
      (Crashed origin (LeftRecoverable main offset buf bound)) := by
  have fits : offset < 2 ^ 64 ∧ buf.length < 2 ^ 64 := by
    unfold offsetLimit at short
    omega
  have complete : ScratchTorn offset buf rest (tornRecord 16 offset buf rest) := Or.inr ⟨16, le_rfl, rfl⟩
  have first : (diskStorageWriteScratch offset buf).Ends store
      (fun _ after => Holds origin after main (tornRecord 16 offset buf rest))
      (Crashed origin (LeftRecoverable main offset buf bound)) := by
    apply (writeScratch_ends offset buf main rest holds (by omega)).mono
    · intro _ _ held
      exact held
    · rintro failure after ⟨crash, armed, torn, state, held⟩
      have length := state.length
      refine ⟨crash, armed, held.recoverable ?_ (by omega)⟩
      rcases state with ⟨count, rfl⟩ | ⟨count, early, rfl⟩
      · exact .before _ (quiet.logged buf count)
      · exact recoverable_tornRecord main count offset buf rest early fits.1 fits.2
  refine first.bind fun _ middle held => ?_
  have length := complete.length
  apply (writeBlockForReal_ends offset buf main _ held (by omega)).mono
  · intro _ after final
    exact ⟨_, final, scratchQuiet_complete main offset buf rest inside short, by omega⟩
  · rintro failure after ⟨crash, armed, count, final⟩
    have part : offset + (buf.take count).length ≤ main.length := by
      rw [List.length_take]
      omega
    refine ⟨crash, armed, final.recoverable (.logged _ _ ?_ ?_ ?_ ?_) (by omega)⟩
    · exact headerSafe_tornRecord 16 offset buf rest le_rfl fits.1
    · apply scratchRecord_complete offset buf rest _ fits.2
      unfold offsetLimit at short
      unfold invalidOffset
      omega
    · exact writeAt_length _ _ _ part
    · exact writeAt_take main buf offset count inside

theorem readAt_version (rest : List UInt8) (start count : Nat) :
    readAt (versionBytes ++ rest) (8 + start) count = (rest.drop start).take count := by
  rw [readAt, ← List.drop_drop, List.drop_left' versionBytes_length]

/-- The last part of `disk_storage_recover_scratch`. -/
def replayRecord (offset : Nat) (buf : List UInt8) : DiskM Unit := do
  diskStorageWriteBlockForReal offset buf
  let _ ← mustLseek .scratchFd 8 .set
  mustWrite .scratchFd (scratchHeader invalidOffset invalidOffset)

/-- The recovery returns after its reads, or goes on to replay the record that it has read. -/
theorem recoverScratch_cases (main rest : List UInt8) (holds : Holds origin store main rest)
    (small : rest.length + 8 < offsetLimit) :
    ∃ middle, Holds origin middle main rest ∧
      match scratchRecord rest with
      | none => diskStorageRecoverScratch store = .ok () middle ∨
          diskStorageRecoverScratch store = .error (.code (.res 1)) middle
      | some (offset, buf) => diskStorageRecoverScratch store = replayRecord offset buf middle := by
  have at_pos : ∀ pos, Holds origin (store.withFile ⟨versionBytes ++ rest, pos⟩ .scratchFd) main rest := by
    intro pos
    exact ⟨holds.toSameBooks.trans (updates_withFile store _ .scratchFd).toSameBooks, holds.main, rfl⟩
  have seekEnd : mustLseek .scratchFd 0 .fromEnd store = .ok (8 + rest.length)
      (store.withFile ⟨versionBytes ++ rest, 8 + rest.length⟩ .scratchFd) := by
    have length : lseekTarget (store.file .scratchFd) 0 .fromEnd = 8 + rest.length := by
      rw [lseekTarget, DiskStorage.file, holds.rest, List.length_append, versionBytes_length, Nat.add_zero]
    rw [mustLseek_run 0 .fromEnd (by rw [length]; omega), length, DiskStorage.file, holds.rest]
  have seekStart : ∀ pos, mustLseek .scratchFd 0 .set
      (store.withFile ⟨versionBytes ++ rest, pos⟩ .scratchFd) =
        .ok 0 (store.withFile ⟨versionBytes ++ rest, 0⟩ .scratchFd) := by
    intro pos
    rw [mustLseek_run 0 .set (show 0 < offsetLimit by decide), file_withFile, withFile_withFile]
    rfl
  have reads : ∀ pos count, read .scratchFd count
      (store.withFile ⟨versionBytes ++ rest, pos⟩ .scratchFd) =
        .ok (readAt (versionBytes ++ rest) pos count) (store.withFile ⟨versionBytes ++ rest, pos +
          (readAt (versionBytes ++ rest) pos count).length⟩ .scratchFd) := by
    intro pos count
    rw [read_run, file_withFile, withFile_withFile]
  have first : readAt (versionBytes ++ rest) 0 8 = versionBytes := by
    rw [readAt, List.drop_zero, List.take_left' versionBytes_length]
  have known : valueOf versionBytes = version := by decide
  have refuse : ∀ (pos : Nat) (result : EStateM.Result Failure DiskStorage Unit),
      (result = .ok () (store.withFile ⟨versionBytes ++ rest, pos⟩ .scratchFd) ∨ result =
        .error (.code (.res 1)) (store.withFile ⟨versionBytes ++ rest, pos⟩ .scratchFd)) →
      (¬ (24 + recordLength rest ≤ rest.length ∧ recordOffset rest ≠ invalidOffset ∧
        recordChecksum rest = diskStorageGetChecksum (recordOffset rest))) →
      ∃ middle, Holds origin middle main rest ∧
        match scratchRecord rest with
        | none => result = .ok () middle ∨ result = .error (.code (.res 1)) middle
        | some (offset, buf) => result = replayRecord offset buf middle := by
    intro pos result returned failed
    refine ⟨_, at_pos pos, ?_⟩
    rw [scratchRecord, if_neg failed]
    exact returned
  unfold diskStorageRecoverScratch
  rw [EStateM.bind_ok seekEnd, EStateM.bind_ok (seekStart _), require_bind rfl,
    EStateM.bind_ok (reads 0 8), first, if_neg (by decide), if_neg (not_not.mpr known),
    versionBytes_length, Nat.zero_add]
  by_cases bare : 8 + rest.length = 8
  · rw [if_pos bare]
    exact refuse _ _ (Or.inl rfl) (by omega)
  have header := readAt_version rest 0 16
  rw [Nat.add_zero, List.drop_zero] at header
  rw [if_neg bare, EStateM.bind_ok (reads 8 16), header]
  by_cases whole : (rest.take 16).length = 16
  · have low : (rest.take 16).take 8 = rest.take 8 := by rw [List.take_take]; rfl
    have high : (rest.take 16).drop 8 = (rest.drop 8).take 8 := by rw [List.drop_take]
    rw [if_neg (not_not.mpr whole), whole, low, high]
    by_cases invalid : valueOf (rest.take 8) = invalidOffset
    · rw [if_pos invalid]
      exact refuse _ _ (Or.inl rfl) fun checks => checks.2.1 invalid
    rw [if_neg invalid, EStateM.bind_ok (reads (8 + 16) 8), readAt_version]
    by_cases sized : ((rest.drop 16).take 8).length = 8
    · rw [if_neg (not_not.mpr sized), sized, show 8 + 16 + 8 = 8 + 24 from rfl,
        EStateM.bind_ok (reads (8 + 24) _), readAt_version]
      by_cases present : ((rest.drop 24).take (valueOf ((rest.drop 16).take 8))).length =
          valueOf ((rest.drop 16).take 8)
      · rw [if_neg (not_not.mpr present), present]
        by_cases checksum : valueOf ((rest.drop 8).take 8) =
            diskStorageGetChecksum (valueOf (rest.take 8))
        · rw [if_neg (not_not.mpr checksum)]
          refine ⟨_, at_pos (8 + 24 + valueOf ((rest.drop 16).take 8)), ?_⟩
          have length : 24 + recordLength rest ≤ rest.length := by
            rw [List.length_take, List.length_drop] at present sized
            unfold recordLength
            omega
          rw [scratchRecord, if_pos ⟨length, invalid, checksum⟩]
          rfl
        · rw [if_pos checksum]
          exact refuse _ _ (Or.inr rfl) fun checks => checksum checks.2.2
      · rw [if_pos present]
        refine refuse _ _ (Or.inr rfl) fun checks => present ?_
        have length := checks.1
        unfold recordLength at length
        rw [List.length_take, List.length_drop]
        omega
    · rw [if_pos sized]
      refine refuse _ _ (Or.inr rfl) fun checks => sized ?_
      rw [List.length_take, List.length_drop]
      omega
  · rw [if_pos whole]
    refine refuse _ _ (Or.inr rfl) fun checks => whole ?_
    rw [List.length_take]
    omega

/-- A replay writes the record and invalidates the header, or stops after a part of these bytes. -/
theorem replayRecord_ends (offset : Nat) (buf main rest : List UInt8)
    (holds : Holds origin store main rest) (room : offset + buf.length < offsetLimit) :
    (replayRecord offset buf).Ends store
      (fun _ after => Holds origin after (writeAt main offset buf) (tear 16 rest))
      (Crashed origin fun after =>
        (∃ count, Holds origin after (writeAt main offset (buf.take count)) rest) ∨
          ∃ count, count ≤ 16 ∧ Holds origin after (writeAt main offset buf) (tear count rest)) := by
  have first : (diskStorageWriteBlockForReal offset buf).Ends store
      (fun _ after => Holds origin after (writeAt main offset buf) rest)
      (Crashed origin fun after =>
        (∃ count, Holds origin after (writeAt main offset (buf.take count)) rest) ∨
          ∃ count, count ≤ 16 ∧ Holds origin after (writeAt main offset buf) (tear count rest)) := by
    apply (writeBlockForReal_ends offset buf main rest holds room).mono
    · intro _ _ held
      exact held
    · rintro failure after ⟨crash, armed, torn⟩
      exact ⟨crash, armed, Or.inl torn⟩
  refine first.bind fun _ middle held => ?_
  have seek := updates_withFile middle ⟨middle.scratchFd.bytes, 8⟩ .scratchFd
  have books := held.toSameBooks.trans seek.toSameBooks
  have torn : ∀ count, writeAt (versionBytes ++ rest) 8 (fullBytes count) =
      versionBytes ++ tear count rest := by
    intro count
    have whole := writeAt_over versionBytes rest (fullBytes count)
    rwa [versionBytes_length, fullBytes_length] at whole
  apply mustLseek_then 8 (by decide)
  rw [invalidHeader_eq]
  apply mustWrite_last _ books (by simp [offsetLimit])
  · intro after count updates
    have part : (fullBytes 16).take count = fullBytes (min count 16) := by
      rw [fullBytes, List.take_replicate]
      rfl
    rw [file_withFile] at updates
    refine Or.inr ⟨min count 16, Nat.min_le_right _ _, books.trans updates.toSameBooks, ?_, ?_⟩
    · exact (congrArg File.bytes (updates.kept .fd (by decide))).trans held.main
    · rw [← torn, ← part, ← held.rest]
      exact congrArg File.bytes updates.changed
  · intro after updates
    rw [file_withFile] at updates
    refine ⟨books.trans updates.toSameBooks, ?_, ?_⟩
    · exact (congrArg File.bytes (updates.kept .fd (by decide))).trans held.main
    · rw [← torn, ← held.rest]
      exact congrArg File.bytes updates.changed

/-- A part of a write that changes nothing changes nothing. -/
theorem writeAt_part_same (main : List UInt8) (offset count : Nat) (buf : List UInt8)
    (inside : offset + buf.length ≤ main.length) (same : writeAt main offset buf = main) :
    writeAt main offset (buf.take count) = main := by
  apply List.ext_getElem?
  intro position
  have entry := congrArg (fun bytes => bytes[position]?) same
  simp only [writeAt_getElem? main offset buf (by omega)] at entry
  rw [writeAt_getElem? _ _ _ (by omega), List.length_take]
  split
  · rw [List.getElem?_take_of_lt (by omega), ← entry, if_pos (by omega)]
  · rfl

/-- A quiet scratch file stays quiet through its own recovery, also when the process stops in it. -/
theorem recoverScratch_quiet (main rest : List UInt8) (bound : Nat) (holds : Holds origin store main rest)
    (quiet : ScratchQuiet main rest) (short : main.length < offsetLimit) (small : rest.length ≤ bound)
    (bounded : bound + 8 < offsetLimit) (wide : 16 ≤ bound) :
    (resultCode diskStorageRecoverScratch).Ends store
      (fun _ after => ∃ left, Holds origin after main left ∧ ScratchQuiet main left ∧ left.length ≤ bound)
      (Crashed origin fun after => ∃ left, Holds origin after main left ∧ ScratchQuiet main left ∧
        left.length ≤ bound) := by
  obtain ⟨middle, held, branch⟩ := recoverScratch_cases main rest holds (by omega)
  have teared : ∀ count, count ≤ 16 → (tear count rest).length ≤ bound := by
    intro count few
    rw [tear, List.length_append, fullBytes_length, List.length_drop]
    omega
  apply resultCode_ends
  cases found : scratchRecord rest with
  | none =>
      rw [found] at branch
      rcases branch with run | run
      · exact EStateM.ends_of_ok run ⟨rest, held, quiet, small⟩
      · exact EStateM.ends_of_error run ⟨rest, held, quiet, small⟩
  | some record =>
      obtain ⟨offset, buf⟩ := record
      rw [found] at branch
      obtain ⟨inside, same⟩ := quiet.replay offset buf found
      apply EStateM.ends_of_eq branch
      apply (replayRecord_ends offset buf main rest held (by omega)).mono
      · intro _ after final
        rw [same] at final
        exact ⟨_, final, quiet.tear 16, teared 16 le_rfl⟩
      · rintro failure after ⟨rfl, armed, ⟨count, final⟩ | ⟨count, few, final⟩⟩
        · rw [writeAt_part_same main offset count buf inside same] at final
          exact ⟨rfl, armed, _, final, quiet, small⟩
        · rw [same] at final
          exact ⟨rfl, armed, _, final, quiet.tear count, teared count few⟩

end Menoetius
