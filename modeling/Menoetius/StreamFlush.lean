import Menoetius.StructuredStream
import Menoetius.Lib.FileImage

/-
This file follows the write buffer through the calls of `write`.
-/

namespace Menoetius
open LittleEndian FileImage

/-- What `write` does with the bytes that it is offered. -/
inductive WriteEvent where
  /-- It fails with `EAGAIN`. -/
  | again
  /-- It accepts all of them. -/
  | whole
  /-- It accepts one byte and as many more, or all if there are fewer. -/
  | part (more : Nat)
  deriving DecidableEq

/-- The write buffer, the bytes that `write` has accepted, and what it will do. -/
structure WriteStream where
  writeBufSize : Nat
  writeBuf : List UInt8
  writeI : Nat
  accepted : List UInt8
  events : List WriteEvent

abbrev WriteM := EStateM Failure WriteStream

namespace WriteStream

def structuredStreamNew (writeBufSize : Nat) (events : List WriteEvent) : WriteStream :=
  { writeBufSize, writeBuf := List.replicate writeBufSize 0, writeI := 0, accepted := [], events }

/-- `write` accepts bytes from the front of the buffer, and `write_i` goes back by as many. -/
def accept (ws : WriteStream) (w : Nat) : WriteStream :=
  { ws with accepted := ws.accepted ++ ws.writeBuf.take w, writeI := ws.writeI - w }

/-- The loop of `structured_stream_flush`. Where nothing is known of `write`, it accepts all bytes. -/
def flushLoop (ws : WriteStream) : List WriteEvent → WriteStream
  | [] => { ws.accept ws.writeI with events := [] }
  | event :: events =>
      if ws.writeI = 0 then { ws with events := event :: events }
      else match event with
        | .again => flushLoop ws events
        | .whole => flushLoop (ws.accept ws.writeI) events
        | .part more => flushLoop (ws.accept (min (more + 1) ws.writeI)) events

def structuredStreamFlush : WriteM Unit := modify fun ws => ws.flushLoop ws.events

def structuredStreamEnsureWrite (n : Nat) : WriteM Unit := do
  let ws ← get
  if n ≤ ws.writeBufSize - ws.writeI then pure ()
  else if ws.writeBufSize < n then throw (.code .structuredStreamBufTooSmall)
  else structuredStreamFlush

def structuredStreamWriteBytes (bytes : List UInt8) : WriteM Unit := do
  structuredStreamEnsureWrite bytes.length
  let ws ← get
  if ws.writeI + bytes.length ≤ ws.writeBuf.length then
    set { ws with writeBuf := writeAt ws.writeBuf ws.writeI bytes, writeI := ws.writeI + bytes.length }
  else throw (.abort .memory)

/-- All writes of numbers differ by the width only. -/
def writeNumber (width x : Nat) : WriteM Unit := structuredStreamWriteBytes (bytesOf width x)

def structuredStreamWriteUint16PrefixedBytes (bytes : List UInt8) : WriteM Unit := do
  let n := bytes.length % 2 ^ 16
  writeNumber 2 n
  if n = 0 then pure ()
  else structuredStreamWriteBytes (bytes.take n)

end WriteStream

/-- The calls that write to the stream. -/
inductive WriteCall where
  | number (width x : Nat)
  | bytes (data : List UInt8)
  | prefixedBytes (data : List UInt8)
  | prefixedString (text : List UInt8)
  | flush

/-- What a call passes to the stream, where the length of a string is a `uint16_t`. -/
def WriteCall.passed : WriteCall → List UInt8
  | .number width x => bytesOf width x
  | .bytes data => data
  | .prefixedBytes data => bytesOf 2 (data.length % 2 ^ 16) ++ data.take (data.length % 2 ^ 16)
  | .prefixedString text => bytesOf 2 ((cString text).length % 2 ^ 16) ++ (cString text).take ((cString text).length % 2 ^ 16)
  | .flush => []

def WriteCall.run : WriteCall → WriteM Unit
  | .number width x => WriteStream.writeNumber width x
  | .bytes data => WriteStream.structuredStreamWriteBytes data
  | .prefixedBytes data => WriteStream.structuredStreamWriteUint16PrefixedBytes data
  | .prefixedString text => WriteStream.structuredStreamWriteUint16PrefixedBytes (cString text)
  | .flush => WriteStream.structuredStreamFlush

/-- The calls one after the other, as long as they return 0. -/
def runWriteCalls : List WriteCall → WriteM Unit
  | [] => pure ()
  | call :: calls => do
      call.run
      runWriteCalls calls

/-- What was accepted and what is still in the buffer. -/
def WriteStream.output (ws : WriteStream) : List UInt8 := ws.accepted ++ ws.writeBuf.take ws.writeI

/-- `write` never accepts a part only. -/
def WriteStream.Whole (ws : WriteStream) : Prop := ∀ more, .part more ∉ ws.events

/-- The buffer has its size, and the stream of the model has the same bytes in it. -/
structure WriteStream.Models (ws : WriteStream) (ss : Stream) : Prop where
  size : ws.writeBuf.length = ws.writeBufSize
  same : ss.writeBufSize = ws.writeBufSize
  within : ws.writeI ≤ ws.writeBufSize
  written : ws.writeBuf.take ws.writeI = ss.written
  outgoing : ws.accepted = ss.outgoing
  whole : ws.Whole

namespace WriteStream

theorem accept_models {ws : WriteStream} {ss : Stream} (models : ws.Models ss) :
    (ws.accept ws.writeI).Models { ss with written := [], outgoing := ss.outgoing ++ ss.written } where
  size := models.size
  same := models.same
  within := by simp [accept]
  written := by simp [accept]
  outgoing := by rw [← models.written, ← models.outgoing]; rfl
  whole := models.whole

/-- The loop empties the buffer onto the socket. -/
theorem flushLoop_models {ws : WriteStream} {ss : Stream} (models : ws.Models ss) {events : List WriteEvent}
    (whole : ∀ more, .part more ∉ events) :
    (ws.flushLoop events).Models { ss with written := [], outgoing := ss.outgoing ++ ss.written } := by
  induction events generalizing ws ss with
  | nil => exact { accept_models models with whole := fun _ => List.not_mem_nil }
  | cons event events ih =>
      have rest : ∀ more, .part more ∉ events := fun more mem => whole more (List.mem_cons_of_mem _ mem)
      unfold flushLoop
      split
      next empty =>
        have written : ss.written = [] := by
          rw [← models.written, empty, List.take_zero]
        rw [written, List.append_nil]
        exact ⟨models.size, models.same, models.within, by rw [empty]; rfl, models.outgoing, whole⟩
      next =>
        cases event with
        | again => exact ih models rest
        | whole =>
            have done := ih (accept_models models) rest
            simpa using done
        | part more => exact absurd List.mem_cons_self (whole more)

theorem structuredStreamFlush_models {ws after : WriteStream} {ss : Stream} (models : ws.Models ss)
    (run : structuredStreamFlush ws = .ok () after) :
    ∃ next, Menoetius.structuredStreamFlush ss = .ok () next ∧ after.Models next := by
  cases run
  exact ⟨_, rfl, flushLoop_models models models.whole⟩

theorem structuredStreamEnsureWrite_models {ws after : WriteStream} {ss : Stream} {n : Nat} (models : ws.Models ss)
    (run : structuredStreamEnsureWrite n ws = .ok () after) :
    ∃ next, Menoetius.structuredStreamEnsureWrite n ss = .ok () next ∧ after.Models next ∧
      after.writeI + n ≤ after.writeBufSize := by
  have length : ss.written.length = ws.writeI := by
    rw [← models.written, List.length_take, models.size, Nat.min_eq_left models.within]
  have start : structuredStreamEnsureWrite n ws =
      if n ≤ ws.writeBufSize - ws.writeI then .ok () ws
      else if ws.writeBufSize < n then .error (.code .structuredStreamBufTooSmall) ws
      else structuredStreamFlush ws := by
    unfold structuredStreamEnsureWrite
    rw [EStateM.bind_ok (EStateM.get_apply ws)]
    split
    · rfl
    · split <;> rfl
  have other : Menoetius.structuredStreamEnsureWrite n ss =
      if n ≤ ws.writeBufSize - ws.writeI then .ok () ss
      else if ws.writeBufSize < n then .error (.code .structuredStreamBufTooSmall) ss
      else Menoetius.structuredStreamFlush ss := by
    unfold Menoetius.structuredStreamEnsureWrite
    rw [EStateM.bind_ok (EStateM.get_apply ss), length, models.same]
    split
    · rfl
    · split <;> rfl
  rw [start] at run
  rw [other]
  have within := models.within
  split at run
  next fits =>
    cases run
    rw [if_pos fits]
    exact ⟨ss, rfl, models, by omega⟩
  next full =>
    split at run
    next => cases run
    next fits =>
      obtain ⟨next, flushed, models⟩ := structuredStreamFlush_models models run
      rw [if_neg full, if_neg fits]
      refine ⟨next, flushed, models, ?_⟩
      cases flushed
      have empty : after.writeI = 0 := by
        have none := congrArg List.length models.written
        rw [List.length_take, models.size, Nat.min_eq_left models.within] at none
        exact none
      have size : after.writeBufSize = ws.writeBufSize := models.same.symm.trans ‹ws.Models ss›.same
      omega

theorem structuredStreamWriteBytes_models {ws after : WriteStream} {ss : Stream} {bytes : List UInt8}
    (models : ws.Models ss) (run : structuredStreamWriteBytes bytes ws = .ok () after) :
    ∃ next, Menoetius.structuredStreamWriteBytes bytes ss = .ok () next ∧ after.Models next := by
  obtain ⟨_, middle, ensured, copied⟩ := EStateM.of_bind_ok run
  obtain ⟨next, sameRun, models, room⟩ := structuredStreamEnsureWrite_models models ensured
  have fits : middle.writeI + bytes.length ≤ middle.writeBuf.length := room.trans_eq models.size.symm
  rw [EStateM.bind_ok (EStateM.get_apply middle), if_pos fits] at copied
  cases copied
  refine ⟨{ next with written := next.written ++ bytes }, ?_, ?_⟩
  · rw [Menoetius.structuredStreamWriteBytes, EStateM.bind_ok sameRun]
    rfl
  · obtain ⟨front, rest, split, length⟩ : ∃ front rest, middle.writeBuf = front ++ rest ∧
        front.length = middle.writeI :=
      ⟨_, _, (List.take_append_drop middle.writeI middle.writeBuf).symm, by
        rw [List.length_take]
        omega⟩
    have written : front = next.written := by
      rw [← models.written, split, ← length, List.take_left]
    have covered := writeAt_over front rest bytes
    rw [← split, length] at covered
    constructor
    · rw [writeAt_length _ _ _ (by omega)]
      exact models.size
    · exact models.same
    · exact room
    · change (writeAt middle.writeBuf middle.writeI bytes).take (middle.writeI + bytes.length) = next.written ++ bytes
      rw [covered, ← List.append_assoc, ← written, ← length, ← List.length_append, List.take_left]
    · exact models.outgoing
    · exact models.whole

theorem structuredStreamWriteUint16PrefixedBytes_models {ws after : WriteStream} {ss : Stream} {bytes : List UInt8}
    (models : ws.Models ss) (run : structuredStreamWriteUint16PrefixedBytes bytes ws = .ok () after) :
    ∃ next, Menoetius.structuredStreamWriteUint16PrefixedBytes bytes ss = .ok () next ∧ after.Models next := by
  obtain ⟨_, middle, number, rest⟩ := EStateM.of_bind_ok run
  obtain ⟨next, sameNumber, models⟩ := structuredStreamWriteBytes_models models number
  have other : Menoetius.structuredStreamWriteUint16PrefixedBytes bytes ss =
      (if bytes.length % 2 ^ 16 = 0 then pure () else
        Menoetius.structuredStreamWriteBytes (bytes.take (bytes.length % 2 ^ 16)) : StreamM Unit) next :=
    EStateM.bind_ok sameNumber _
  rw [other]
  by_cases none : bytes.length % 2 ^ 16 = 0
  · rw [if_pos none] at rest ⊢
    cases rest
    exact ⟨next, rfl, models⟩
  · rw [if_neg none] at rest ⊢
    exact structuredStreamWriteBytes_models models rest

end WriteStream

/-- The same call on the stream of the model. -/
def WriteCall.runStream : WriteCall → StreamM Unit
  | .number width x => writeUint width x
  | .bytes data => structuredStreamWriteBytes data
  | .prefixedBytes data => structuredStreamWriteUint16PrefixedBytes data
  | .prefixedString text => structuredStreamWriteUint16PrefixedString text
  | .flush => structuredStreamFlush

/-- A call that returns does the same on both streams. -/
theorem WriteCall.run_models {call : WriteCall} {ws after : WriteStream} {ss : Stream} (models : ws.Models ss)
    (run : call.run ws = .ok () after) : ∃ next, call.runStream ss = .ok () next ∧ after.Models next := by
  cases call with
  | number width x => exact WriteStream.structuredStreamWriteBytes_models models run
  | bytes data => exact WriteStream.structuredStreamWriteBytes_models models run
  | prefixedBytes data => exact WriteStream.structuredStreamWriteUint16PrefixedBytes_models models run
  | prefixedString text => exact WriteStream.structuredStreamWriteUint16PrefixedBytes_models models run
  | flush => exact WriteStream.structuredStreamFlush_models models run

/-- A write of bytes that returns adds them to the output. -/
theorem structuredStreamWriteBytes_output {bytes : List UInt8} {ss after : Stream}
    (run : structuredStreamWriteBytes bytes ss = .ok () after) : after.output = ss.output ++ bytes := by
  obtain ⟨_, middle, ensured, copied⟩ := EStateM.of_bind_ok run
  cases copied
  have kept : middle.output = ss.output := by
    unfold structuredStreamEnsureWrite at ensured
    rw [EStateM.bind_ok (EStateM.get_apply ss)] at ensured
    split at ensured
    · cases ensured
      rfl
    · split at ensured
      · cases ensured
      · cases ensured
        simp [Stream.output]
  rw [← kept]
  exact (List.append_assoc _ _ _).symm

theorem structuredStreamWriteUint16PrefixedBytes_output {bytes : List UInt8} {ss after : Stream}
    (run : structuredStreamWriteUint16PrefixedBytes bytes ss = .ok () after) :
    after.output = ss.output ++ (bytesOf 2 (bytes.length % 2 ^ 16) ++ bytes.take (bytes.length % 2 ^ 16)) := by
  obtain ⟨_, middle, number, rest⟩ := EStateM.of_bind_ok run
  have first := structuredStreamWriteBytes_output number
  by_cases none : bytes.length % 2 ^ 16 = 0
  · rw [if_pos none] at rest
    cases rest
    rw [first, none, List.take_zero, List.append_nil]
  · rw [if_neg none] at rest
    rw [structuredStreamWriteBytes_output rest, first, List.append_assoc]

/-- A call that returns adds what it passes to the output. -/
theorem WriteCall.runStream_output {call : WriteCall} {ss after : Stream} (run : call.runStream ss = .ok () after) :
    after.output = ss.output ++ call.passed := by
  cases call with
  | number width x => exact structuredStreamWriteBytes_output run
  | bytes data => exact structuredStreamWriteBytes_output run
  | prefixedBytes data => exact structuredStreamWriteUint16PrefixedBytes_output run
  | prefixedString text => exact structuredStreamWriteUint16PrefixedBytes_output run
  | flush =>
      cases run
      simp [Stream.output, WriteCall.passed]

/-- A run of calls keeps the bytes of both streams the same and adds what the calls pass. -/
theorem runWriteCalls_models {calls : List WriteCall} {ws after : WriteStream} {ss : Stream} (models : ws.Models ss)
    (run : runWriteCalls calls ws = .ok () after) :
    ∃ next, after.Models next ∧ next.output = ss.output ++ calls.flatMap WriteCall.passed := by
  induction calls generalizing ws ss with
  | nil =>
      cases run
      exact ⟨ss, models, (List.append_nil _).symm⟩
  | cons call calls ih =>
      obtain ⟨_, middle, first, rest⟩ := EStateM.of_bind_ok run
      obtain ⟨next, sameRun, models⟩ := WriteCall.run_models models first
      obtain ⟨last, models, output⟩ := ih models rest
      refine ⟨last, models, ?_⟩
      rw [output, WriteCall.runStream_output sameRun, List.flatMap_cons, List.append_assoc]

/-- While `write` accepts all bytes or none, the calls' bytes leave the stream in order. -/
theorem runWriteCalls_output (writeBufSize : Nat) (events : List WriteEvent)
    (whole : ∀ more, WriteEvent.part more ∉ events) (calls : List WriteCall) (after : WriteStream)
    (run : runWriteCalls calls (WriteStream.structuredStreamNew writeBufSize events) = .ok () after) :
    after.output = calls.flatMap WriteCall.passed := by
  have start : (WriteStream.structuredStreamNew writeBufSize events).Models
      (structuredStreamNew 0 writeBufSize fun _ => 0) :=
    ⟨List.length_replicate, rfl, Nat.zero_le _, rfl, rfl, whole⟩
  obtain ⟨next, models, output⟩ := runWriteCalls_models start run
  rw [WriteStream.output, models.written, models.outgoing]
  exact output

/-- A write of three bytes and a flush that meets `EAGAIN` before all bytes are accepted. -/
theorem runWriteCalls_output_again :
    ∃ after, runWriteCalls [.bytes [1, 2, 3], .flush, .number 1 4]
        (WriteStream.structuredStreamNew 4 [.again, .whole]) = .ok () after ∧ after.output = [1, 2, 3, 4] := by
  refine ⟨_, rfl, ?_⟩
  exact runWriteCalls_output 4 [.again, .whole] (by simp) [.bytes [1, 2, 3], .flush, .number 1 4] _ rfl

/-- After a short write the loop sends the front of the buffer again, and the last bytes are lost. -/
theorem runWriteCalls_short :
    ∃ after, runWriteCalls [.bytes [1, 2, 3], .flush] (WriteStream.structuredStreamNew 4 [.part 0]) = .ok () after ∧
      after.output = [1, 1, 2] ∧ [WriteCall.bytes [1, 2, 3], .flush].flatMap WriteCall.passed = [1, 2, 3] :=
  ⟨_, rfl, rfl, rfl⟩

end Menoetius
