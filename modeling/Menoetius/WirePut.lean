import Menoetius.Client
import Menoetius.StorageState

/-
This file follows put requests from the client to the storage.
-/

namespace Menoetius
open LittleEndian HasStream

section
variable {readSize writeSize : Nat}

theorem exchanges_ensureWrite {n : Nat} (fits : n ≤ writeSize) :
    Exchanges readSize writeSize (structuredStreamEnsureWrite n) [] [] () := by
  intro ss valid _ write _
  change ss.Valid at valid
  change writeSize ≤ ss.writeBufSize at write
  unfold structuredStreamEnsureWrite
  rw [EStateM.bind_ok (EStateM.get_apply ss)]
  split
  · exact ⟨ss, rfl, .refl valid⟩
  · rw [if_neg (by omega)]
    exact exchanges_flush ss valid (Nat.zero_le _) (Nat.zero_le _) List.nil_prefix

theorem exchanges_readPrefixedBytes {bytes : List UInt8} {bufSize : Nat} (short : bytes.length < 2 ^ 16)
    (fits : bytes.length + 2 ≤ readSize) (room : bytes.length ≤ bufSize) :
    Exchanges readSize writeSize (structuredStreamReadUint16PrefixedBytes bufSize) (prefixed bytes) [] bytes := by
  have both : Exchanges readSize writeSize (structuredStreamReadUint16PrefixedBytes bufSize) (prefixed bytes ++ []) []
      bytes := by
    refine (exchanges_readPrefixed short fits).bind ?_
    rw [if_neg (Nat.not_lt.mpr room)]
    exact exchanges_pure bytes
  rw [List.append_nil] at both
  exact both

end

/-- A key is not longer than its buffer. -/
theorem readPrefixedBytes_length {σ : Type} {bufSize : Nat} {data after : Conn σ} {key : List UInt8}
    (run : onStream (structuredStreamReadUint16PrefixedBytes bufSize) data = .ok key after) : key.length ≤ bufSize := by
  obtain ⟨ss, read, rfl⟩ := of_onStream_ok run
  obtain ⟨bytes, middle, _, checked⟩ := EStateM.of_bind_ok read
  split at checked
  · cases checked
  · cases checked
    omega

/-- The action does this work on the storage, and takes and adds these bytes. -/
def Serves {σ α : Type} (readSize writeSize : Nat) (action : ConnM σ α) (taken added : List UInt8)
    (work : EStateM Failure σ α) : Prop :=
  ∀ data : Conn σ, data.ss.Valid → readSize ≤ data.ss.readBufSize → writeSize ≤ data.ss.writeBufSize →
    taken <+: data.ss.input →
      (∀ value storage, work data.storage = .ok value storage →
        ∃ ss, action data = .ok value { data with ss, storage } ∧ data.ss.Moved ss taken added) ∧
      ∀ failure storage, work data.storage = .error failure storage → ∃ after, action data = .error failure after

section
variable {σ α β : Type} {readSize writeSize : Nat}

theorem serves_pure (value : α) : Serves readSize writeSize (pure value : ConnM σ α) [] [] (pure value) := by
  intro data valid _ _ _
  refine ⟨fun _ storage done => ?_, fun _ _ failed => by cases failed⟩
  cases done
  exact ⟨data.ss, rfl, .refl valid⟩

/-- A sequence does the work of its parts. -/
theorem Serves.bind {first : ConnM σ α} {next : α → ConnM σ β} {taken added more others : List UInt8}
    {work : EStateM Failure σ α} {later : α → EStateM Failure σ β}
    (start : Serves readSize writeSize first taken added work)
    (rest : ∀ value, Serves readSize writeSize (next value) more others (later value)) :
    Serves readSize writeSize (first >>= next) (taken ++ more) (added ++ others) (work >>= later) := by
  intro data valid read write part
  obtain ⟨good, bad⟩ := start data valid read write ((List.prefix_append _ _).trans part)
  cases begun : work data.storage with
  | error failure storage =>
      obtain ⟨after, run⟩ := bad failure storage begun
      rw [EStateM.bind_error begun, EStateM.bind_error run]
      refine ⟨fun _ _ done => (by cases done), fun other final failed => ?_⟩
      cases failed
      exact ⟨after, rfl⟩
  | ok value middle =>
      obtain ⟨ss, run, moved⟩ := good value middle begun
      have remains : more <+: ss.input := by
        rw [moved.input] at part
        exact (List.prefix_append_right_inj taken).mp part
      obtain ⟨good', bad'⟩ := rest value { data with ss, storage := middle } moved.valid
        (by rw [moved.readBufSize]; exact read) (by rw [moved.writeBufSize]; exact write) remains
      rw [EStateM.bind_ok begun, EStateM.bind_ok run]
      refine ⟨fun result storage done => ?_, bad'⟩
      obtain ⟨final, again, further⟩ := good' result storage done
      exact ⟨final, again, moved.trans further⟩

/-- The first part of a sequence has a known value and does not touch the storage. -/
theorem Serves.after {first : ConnM σ α} {next : α → ConnM σ β} {taken added more others : List UInt8} {value : α}
    {work : EStateM Failure σ β} (start : Exchanges readSize writeSize first taken added value)
    (rest : Serves readSize writeSize (next value) more others work) :
    Serves readSize writeSize (first >>= next) (taken ++ more) (added ++ others) work := by
  intro data valid read write part
  obtain ⟨ss, run, moved⟩ := start data valid read write ((List.prefix_append _ _).trans part)
  have moved : data.ss.Moved ss taken added := moved
  have remains : more <+: ss.input := by
    rw [moved.input] at part
    exact (List.prefix_append_right_inj taken).mp part
  obtain ⟨good, bad⟩ := rest (withStream data ss) moved.valid (moved.readBufSize ▸ read) (moved.writeBufSize ▸ write)
    remains
  rw [EStateM.bind_ok run]
  refine ⟨fun result storage done => ?_, bad⟩
  obtain ⟨final, again, further⟩ := good result storage done
  exact ⟨final, again, moved.trans further⟩

/-- Bytes that fit the buffer are looked at before they are taken. -/
theorem Serves.ensureRead {n : Nat} {next : Unit → ConnM σ α} {taken added : List UInt8} {work : EStateM Failure σ α}
    (fits : n ≤ readSize) (enough : n ≤ taken.length) (rest : Serves readSize writeSize (next ()) taken added work) :
    Serves readSize writeSize (onStream (structuredStreamEnsureRead n) >>= next) taken added work := by
  intro data valid read write part
  obtain ⟨ss, run, _, moved⟩ := structuredStreamEnsureRead_run valid (fits.trans read) (enough.trans part.length_le)
  have same : data.ss.input = ss.input := moved.input
  obtain ⟨good, bad⟩ := rest (withStream data ss) moved.valid (moved.readBufSize ▸ read) (moved.writeBufSize ▸ write)
    (by rw [same] at part; exact part)
  have looked : onStream (structuredStreamEnsureRead n) data = .ok () (withStream data ss) := by
    rw [onStream, show stream data = data.ss from rfl, run]
  rw [EStateM.bind_ok looked]
  refine ⟨fun result storage done => ?_, bad⟩
  obtain ⟨final, again, further⟩ := good result storage done
  exact ⟨final, again, moved.trans further⟩

/-- A call on the storage exchanges no bytes. -/
theorem serves_onStorage (action : EStateM Failure σ α) :
    Serves readSize writeSize (onStorage action) [] [] action := by
  intro data valid _ _ _
  refine ⟨fun value storage done => ?_, fun failure storage failed => ?_⟩
  · exact ⟨data.ss, by rw [onStorage, done], .refl valid⟩
  · exact ⟨_, by rw [onStorage, failed]⟩

end

/-- The points of a request for one key. -/
def pointsBytes (points : List Point) : List UInt8 := points.flatMap pointBytes

/-- One key of a put request. -/
def putEntry (key : List UInt8) (points : List Point) : List UInt8 :=
  prefixed key ++ (bytesOf 4 points.length ++ pointsBytes points)

/-- The keys of a put request, behind its code, and the empty key at its end. -/
def putRequest (batch : List (List UInt8 × List Point)) : List UInt8 :=
  batch.flatMap (fun entry => putEntry entry.1 entry.2) ++ prefixed []

section
variable {σ : Type} (calls : StorageCalls σ) (earliestTime : Int) {readSize writeSize : Nat}

/-- The call of `storage_write` for a point that is not too old. -/
def writePointTo (key : List UInt8) (point : Point) : EStateM Failure σ Unit :=
  if point.1.toInt < earliestTime then pure ()
  else do
    let _ ← reported (calls.storageWrite key point)

/-- The calls of `storage_write` for the points of one key. -/
def writePointsTo (key : List UInt8) : List Point → EStateM Failure σ Unit
  | [] => pure ()
  | point :: rest => do
      writePointTo calls earliestTime key point
      writePointsTo key rest

/-- The calls of `storage_write` for a put request. -/
def writeBatch : List (List UInt8 × List Point) → EStateM Failure σ Unit
  | [] => pure ()
  | (key, points) :: rest => do
      writePointsTo calls earliestTime key points
      writeBatch rest

theorem reported_error {action : EStateM Failure σ (Option Err)} {storage after : σ} {failure : Failure}
    (stopped : reported action storage = .error failure after) : ∃ site, failure = .abort site := by
  unfold reported at stopped
  split at stopped
  · cases stopped
  · rename_i other
    cases failure with
    | abort site => exact ⟨site, rfl⟩
    | code err => exact absurd stopped (other err after)

/-- The calls end only with a stop. -/
theorem writePointsTo_error {key : List UInt8} {points : List Point} :
    ∀ {storage after : σ} {failure : Failure}, writePointsTo calls earliestTime key points storage = .error failure after →
      ∃ site, failure = .abort site := by
  induction points with
  | nil => exact fun stopped => by cases stopped
  | cons point rest ih =>
      intro storage after failure stopped
      cases first : writePointTo calls earliestTime key point storage with
      | ok _ middle =>
          rw [writePointsTo, EStateM.bind_ok first] at stopped
          exact ih stopped
      | error other middle =>
          rw [writePointsTo, EStateM.bind_error first] at stopped
          cases stopped
          unfold writePointTo at first
          split at first
          · cases first
          · cases call : reported (calls.storageWrite key point) storage with
            | ok value between =>
                rw [EStateM.bind_ok call] at first
                cases first
            | error cause between =>
                rw [EStateM.bind_error call] at first
                cases first
                exact reported_error call

theorem writeBatch_error {batch : List (List UInt8 × List Point)} :
    ∀ {storage after : σ} {failure : Failure}, writeBatch calls earliestTime batch storage = .error failure after →
      ∃ site, failure = .abort site := by
  induction batch with
  | nil => exact fun stopped => by cases stopped
  | cons entry rest ih =>
      intro storage after failure stopped
      cases first : writePointsTo calls earliestTime entry.1 entry.2 storage with
      | ok _ middle =>
          rw [writeBatch, EStateM.bind_ok first] at stopped
          exact ih stopped
      | error other middle =>
          rw [writeBatch, EStateM.bind_error first] at stopped
          cases stopped
          exact writePointsTo_error calls earliestTime first

theorem pointBytes_length (point : Point) : (pointBytes point).length = 16 := by
  rw [pointBytes, List.length_append, bytesOf_length, bytesOf_length]

theorem serves_putPoint (key : List UInt8) (point : Point) (fits : 16 ≤ readSize) :
    Serves readSize writeSize (handleConnPutPoint calls earliestTime key) (pointBytes point) []
      (writePointTo calls earliestTime key point) := by
  have write : Serves readSize writeSize (if point.1.toInt < earliestTime then pure ()
      else do let _ ← onStorage (reported (calls.storageWrite key (point.1, point.2))) : ConnM σ Unit) [] []
      (writePointTo calls earliestTime key point) := by
    unfold writePointTo
    split
    · exact serves_pure ()
    · exact (serves_onStorage _).bind fun _ => serves_pure ()
  have number : ∀ word : Word, Exchanges readSize writeSize
      (onStream (BitVec.ofNat 64 <$> readUint 8) : ConnM σ Word) (bytesOf 8 word.toNat) [] word :=
    fun word => (exchanges_readWord word (by omega)).on
  have bytes : pointBytes point = bytesOf 8 point.1.toNat ++ (bytesOf 8 point.2.toNat ++ []) := by
    rw [List.append_nil]
    rfl
  refine Serves.ensureRead fits (pointBytes_length point).ge ?_
  rw [bytes]
  refine Serves.after (number point.1) ?_
  exact Serves.after (number point.2) write

theorem serves_putPoints (key : List UInt8) (points : List Point) (fits : 16 ≤ readSize) :
    Serves readSize writeSize (handleConnPutPoints calls earliestTime key points.length) (pointsBytes points) []
      (writePointsTo calls earliestTime key points) := by
  induction points with
  | nil => exact serves_pure ()
  | cons point rest ih => exact (serves_putPoint calls earliestTime key point fits).bind fun _ => ih

/-- A put request whose keys and counts fit their fields. -/
def ValidBatch (batch : List (List UInt8 × List Point)) : Prop :=
  ∀ entry ∈ batch, ValidKey entry.1 ∧ entry.2.length < 2 ^ 32

theorem serves_putLoop (batch : List (List UInt8 × List Point)) (valid : ValidBatch batch) (rounds : Nat)
    (enough : batch.length < rounds) (fits : maxLfmSize + 2 ≤ readSize) :
    Serves readSize writeSize (handleConnPutLoop calls earliestTime rounds) (putRequest batch) []
      (writeBatch calls earliestTime batch) := by
  unfold maxLfmSize at fits
  induction batch generalizing rounds with
  | nil =>
      obtain ⟨rounds, rfl⟩ := Nat.exists_eq_add_one.mpr (Nat.zero_lt_of_lt enough)
      have last : Exchanges readSize writeSize
          (onStream (structuredStreamReadUint16PrefixedBytes maxLfmSize) : ConnM σ (List UInt8)) (prefixed []) [] [] :=
        (exchanges_readPrefixedBytes (by decide) (by simp only [List.length_nil]; omega) (by decide)).on
      have bytes : putRequest [] = prefixed [] ++ [] := by
        rw [List.append_nil]
        rfl
      rw [bytes]
      exact Serves.after last (serves_pure ())
  | cons entry batch ih =>
      obtain ⟨key, points⟩ := entry
      obtain ⟨⟨⟨nonempty, short⟩, few⟩, others⟩ := List.forall_mem_cons.mp valid
      dsimp only at nonempty short few
      obtain ⟨rounds, rfl⟩ := Nat.exists_eq_add_one.mpr (Nat.zero_lt_of_lt enough)
      have first : Exchanges readSize writeSize
          (onStream (structuredStreamReadUint16PrefixedBytes maxLfmSize) : ConnM σ (List UInt8)) (prefixed key) [] key :=
        (exchanges_readPrefixedBytes (by unfold maxLfmSize at short; omega) (by unfold maxLfmSize at short; omega)
          short).on
      have count : Exchanges readSize writeSize (onStream structuredStreamReadUint32 : ConnM σ Nat)
          (bytesOf 4 points.length) [] points.length := (exchanges_readUint (by omega) (by omega)).on
      have bytes : putRequest ((key, points) :: batch) =
          prefixed key ++ (bytesOf 4 points.length ++ (pointsBytes points ++ putRequest batch)) := by
        rw [putRequest, List.flatMap_cons, putEntry, putRequest]
        simp only [List.append_assoc]
      rw [bytes]
      unfold handleConnPutLoop
      refine Serves.after first ?_
      rw [if_neg (by omega)]
      refine Serves.after count ?_
      exact (serves_putPoints calls earliestTime key points (by omega)).bind fun _ =>
        ih others rounds (Nat.lt_of_succ_lt_succ enough)

end

theorem batch_length_le (batch : List (List UInt8 × List Point)) : batch.length ≤ (putRequest batch).length := by
  induction batch with
  | nil => exact Nat.zero_le _
  | cons entry rest ih =>
      have step : (putRequest (entry :: rest)).length = (putEntry entry.1 entry.2).length + (putRequest rest).length := by
        rw [putRequest, List.flatMap_cons, List.append_assoc, List.length_append]
        rfl
      have some : 2 ≤ (putEntry entry.1 entry.2).length := by
        rw [putEntry, List.length_append, prefixed_length]
        omega
      rw [step, List.length_cons]
      omega

section
variable {σ : Type} (calls : StorageCalls σ)

/-- The server takes a put request from the stream, makes its calls of `storage_write` and answers with one byte. -/
theorem handleConnPutData_run {data : Conn σ} (now : Int) {batch : List (List UInt8 × List Point)}
    (batchValid : ValidBatch batch) (valid : data.ss.Valid) (read : maxLfmSize + 2 ≤ data.ss.readBufSize)
    (write : 5 ≤ data.ss.writeBufSize) (part : putRequest batch <+: data.ss.input) :
    (∀ storage, writeBatch calls (now - calls.retentionSeconds) batch data.storage = .ok () storage →
      ∃ ss, handleConnPutData calls now data = .ok () { data with ss, storage } ∧
        data.ss.Moved ss (putRequest batch) (bytesOf 1 (statusOf data 0)) ∧ ss.written = []) ∧
    ∀ failure storage, writeBatch calls (now - calls.retentionSeconds) batch data.storage = .error failure storage →
      ∃ after, handleConnPutData calls now data = .error failure after := by
  have rounds : batch.length < data.ss.input.length + 1 :=
    Nat.lt_succ_of_le ((batch_length_le batch).trans part.length_le)
  obtain ⟨good, bad⟩ := @serves_putLoop σ calls (now - calls.retentionSeconds) (maxLfmSize + 2) 5 batch batchValid _ rounds
    le_rfl data valid read write part
  unfold handleConnPutData
  rw [EStateM.bind_ok (EStateM.get_apply data)]
  refine ⟨fun storage done => ?_, fun failure storage failed => ?_⟩
  · obtain ⟨ss, run, moved⟩ := good () storage done
    obtain ⟨room, ensured, moved1⟩ := @exchanges_ensureWrite 0 5 5 le_rfl ss moved.valid (Nat.zero_le _)
      (moved.writeBufSize ▸ write) List.nil_prefix
    obtain ⟨replied, wrote, moved2⟩ := @exchanges_writeUint 0 5 1 (statusOf data 0) (by decide) room moved1.valid
      (Nat.zero_le _) (moved1.writeBufSize ▸ moved.writeBufSize ▸ write) List.nil_prefix
    obtain ⟨flushed, sent, moved3, none⟩ := structuredStreamFlush_run moved2.valid
    refine ⟨flushed, ?_, ?_, none⟩
    · rw [EStateM.bind_ok run, EStateM.bind_ok (onStream_ok ensured), EStateM.bind_ok (EStateM.get_apply _)]
      exact (EStateM.bind_ok (onStream_ok wrote) _).trans (onStream_ok sent)
    · have all := ((moved.trans moved1).trans moved2).trans moved3
      simpa using all
  · obtain ⟨after, run⟩ := bad failure storage failed
    exact ⟨after, EStateM.bind_error run _⟩

end

end Menoetius
