import Menoetius.Globals
import Menoetius.Bitstream
import Menoetius.Lib.LittleEndian

/-
This file models the buffered stream over a socket.
-/

namespace Menoetius
open LittleEndian

/-- The buffers of one end of a connection, and the bytes on their way from and to the other end. -/
structure Stream where
  readBufSize : Nat
  writeBufSize : Nat
  /-- The bytes between `read_i` and `read_n`. -/
  unread : List UInt8
  /-- The bytes before `write_i`. -/
  written : List UInt8
  incoming : List UInt8
  outgoing : List UInt8
  /-- How many bytes have arrived at each call of `read`. -/
  arrived : Nat → Nat
  reads : Nat

abbrev StreamM := EStateM Failure Stream

/-- A state with one stream in it. -/
class HasStream (S : Type) where
  stream : S → Stream
  withStream : S → Stream → S
  stream_withStream : ∀ state ss, stream (withStream state ss) = ss
  withStream_withStream : ∀ state ss after, withStream (withStream state ss) after = withStream state after
  withStream_stream : ∀ state, withStream state (stream state) = state

open HasStream

instance : HasStream Stream where
  stream := id
  withStream := fun _ ss => ss
  stream_withStream := fun _ _ => rfl
  withStream_withStream := fun _ _ _ => rfl
  withStream_stream := fun _ => rfl

/-- A call on the stream of a state. -/
def onStream {S α : Type} [HasStream S] (action : StreamM α) : EStateM Failure S α := fun state =>
  match action (stream state) with
  | .ok value ss => .ok value (withStream state ss)
  | .error failure ss => .error failure (withStream state ss)

def structuredStreamNew (readBufSize writeBufSize : Nat) (arrived : Nat → Nat) : Stream :=
  { readBufSize, writeBufSize, unread := [], written := [], incoming := [], outgoing := [], arrived, reads := 0 }

/-- `read` returns what has arrived and fits, and at least one byte until the other end closes. -/
def socketRead (maxSpace : Nat) : StreamM Nat := do
  let ss ← get
  let m := min (min maxSpace ss.incoming.length) (max 1 (ss.arrived ss.reads))
  set { ss with unread := ss.unread ++ ss.incoming.take m, incoming := ss.incoming.drop m, reads := ss.reads + 1 }
  pure m

/-- Each round reads at least one byte, so that the bytes that are needed bound the rounds. -/
def ensureReadLoop : Nat → Nat → Nat → StreamM Unit
  | 0, _, _ => pure ()
  | rounds + 1, needed, maxSpace => do
      require (0 < maxSpace) .ensureReadSpace
      let m ← socketRead maxSpace
      if m = 0 then throw (.code .structuredStreamEof)
      else if m < needed then ensureReadLoop rounds (needed - m) (maxSpace - m)
      else pure ()

def structuredStreamEnsureRead (n : Nat) : StreamM Unit := do
  let ss ← get
  let avail := ss.unread.length
  if n ≤ avail then pure ()
  else
    -- The unread bytes are moved to the front of the buffer.
    let needed := n - avail
    let maxSpace := ss.readBufSize - avail
    if maxSpace < needed then throw (.code .structuredStreamBufTooSmall)
    else ensureReadLoop needed needed maxSpace

/-- The socket blocks until it has taken all bytes. -/
def structuredStreamFlush : StreamM Unit :=
  modify fun ss => { ss with written := [], outgoing := ss.outgoing ++ ss.written }

def structuredStreamEnsureWrite (n : Nat) : StreamM Unit := do
  let ss ← get
  if n ≤ ss.writeBufSize - ss.written.length then pure ()
  else if ss.writeBufSize < n then throw (.code .structuredStreamBufTooSmall)
  else structuredStreamFlush

/-- The next bytes leave the buffer. -/
def takeUnread (n : Nat) : StreamM (List UInt8) := do
  let ss ← get
  set { ss with unread := ss.unread.drop n }
  pure (ss.unread.take n)

def structuredStreamReadBytes (n : Nat) : StreamM (List UInt8) := do
  structuredStreamEnsureRead n
  takeUnread n

/-- All reads of numbers differ by the width only. -/
def readUint (width : Nat) : StreamM Nat := do
  let bytes ← structuredStreamReadBytes width
  pure (valueOf bytes)

def structuredStreamReadUint8 : StreamM Nat := readUint 1

def structuredStreamReadUint16 : StreamM Nat := readUint 2

def structuredStreamReadUint32 : StreamM Nat := readUint 4

def structuredStreamReadUint64 : StreamM Nat := readUint 8

def structuredStreamReadInt64 : StreamM Word := BitVec.ofNat 64 <$> readUint 8

def structuredStreamReadDouble : StreamM Word := BitVec.ofNat 64 <$> readUint 8

/-- A stream that ends inside the bytes of a value. -/
def underrun {α : Type} (action : StreamM α) : StreamM α := fun ss =>
  match action ss with
  | .error (.code .structuredStreamEof) after => .error (.code .structuredStreamBufUnderrun) after
  | result => result

def structuredStreamReadUint16PrefixedBytesInplace : StreamM (List UInt8) := do
  structuredStreamEnsureRead 2
  let ss ← get
  -- The length is only looked at, so that it stays in the buffer with the bytes that follow.
  let n := valueOf (ss.unread.take 2)
  underrun (structuredStreamEnsureRead (n + 2))
  let _ ← takeUnread 2
  takeUnread n

def structuredStreamReadUint16PrefixedBytes (bufSize : Nat) : StreamM (List UInt8) := do
  let bytes ← structuredStreamReadUint16PrefixedBytesInplace
  if bufSize < bytes.length then throw (.code .structuredStreamBufTooSmall)
  else pure bytes

def structuredStreamReadBytesInplace (n : Nat) : StreamM (List UInt8) := do
  underrun (structuredStreamEnsureRead n)
  takeUnread n

def structuredStreamWriteBytes (bytes : List UInt8) : StreamM Unit := do
  structuredStreamEnsureWrite bytes.length
  modify fun ss => { ss with written := ss.written ++ bytes }

/-- All writes of numbers differ by the width only. -/
def writeUint (width x : Nat) : StreamM Unit := structuredStreamWriteBytes (bytesOf width x)

def structuredStreamWriteUint8 (x : Nat) : StreamM Unit := writeUint 1 x

def structuredStreamWriteUint16 (x : Nat) : StreamM Unit := writeUint 2 x

def structuredStreamWriteUint32 (x : Nat) : StreamM Unit := writeUint 4 x

def structuredStreamWriteUint64 (x : Nat) : StreamM Unit := writeUint 8 x

def structuredStreamWriteInt64 (x : Word) : StreamM Unit := writeUint 8 x.toNat

def structuredStreamWriteDouble (x : Word) : StreamM Unit := writeUint 8 x.toNat

/-- The length is a `uint16_t`, and only as many bytes are written. -/
def structuredStreamWriteUint16PrefixedBytes (bytes : List UInt8) : StreamM Unit := do
  let n := bytes.length % 2 ^ 16
  structuredStreamWriteUint16 n
  if n = 0 then pure ()
  else structuredStreamWriteBytes (bytes.take n)

/-- The bytes of a C string. -/
def cString (bytes : List UInt8) : List UInt8 := bytes.takeWhile fun byte => byte ≠ 0

def structuredStreamWriteUint16PrefixedString (text : List UInt8) : StreamM Unit :=
  structuredStreamWriteUint16PrefixedBytes (cString text)

namespace Stream

/-- All bytes that can still be read. -/
def input (ss : Stream) : List UInt8 := ss.unread ++ ss.incoming

/-- All bytes that were written. -/
def output (ss : Stream) : List UInt8 := ss.outgoing ++ ss.written

structure Valid (ss : Stream) : Prop where
  unread : ss.unread.length ≤ ss.readBufSize
  written : ss.written.length ≤ ss.writeBufSize

/-- A step takes bytes from the input and adds bytes to the output. -/
structure Moved (ss after : Stream) (taken added : List UInt8) : Prop where
  input : ss.input = taken ++ after.input
  output : after.output = ss.output ++ added
  readBufSize : after.readBufSize = ss.readBufSize
  writeBufSize : after.writeBufSize = ss.writeBufSize
  valid : after.Valid

theorem Moved.refl {ss : Stream} (valid : ss.Valid) : Moved ss ss [] [] :=
  ⟨rfl, (List.append_nil _).symm, rfl, rfl, valid⟩

theorem Moved.trans {first second third : Stream} {taken added more others : List UInt8}
    (start : Moved first second taken added) (rest : Moved second third more others) :
    Moved first third (taken ++ more) (added ++ others) where
  input := by rw [start.input, rest.input, List.append_assoc]
  output := by rw [rest.output, start.output, List.append_assoc]
  readBufSize := rest.readBufSize.trans start.readBufSize
  writeBufSize := rest.writeBufSize.trans start.writeBufSize
  valid := rest.valid

end Stream

section
variable {ss : Stream}

/-- One `read` of a socket with bytes left. -/
theorem socketRead_run {maxSpace : Nat} (space : 0 < maxSpace) (some : 0 < ss.incoming.length)
    (fits : ss.unread.length + maxSpace ≤ ss.readBufSize) (short : ss.written.length ≤ ss.writeBufSize) :
    ∃ m after, socketRead maxSpace ss = .ok m after ∧ 0 < m ∧ m ≤ maxSpace ∧
      after.unread.length = ss.unread.length + m ∧ ss.Moved after [] [] := by
  let m := min (min maxSpace ss.incoming.length) (max 1 (ss.arrived ss.reads))
  have positive : 0 < m := by
    simp only [m]
    omega
  have length : (ss.unread ++ ss.incoming.take m).length = ss.unread.length + m := by
    rw [List.length_append, List.length_take]
    simp only [m]
    omega
  have bound : m ≤ maxSpace := by
    simp only [m]
    omega
  refine ⟨m, _, rfl, positive, bound, length, ?_, (List.append_nil _).symm, rfl, rfl, ⟨?_, short⟩⟩
  · change ss.unread ++ ss.incoming = ss.unread ++ ss.incoming.take m ++ ss.incoming.drop m
    rw [List.append_assoc, List.take_append_drop]
  · have room : ss.unread.length + m ≤ ss.readBufSize := by omega
    exact length.trans_le room

/-- The loop stops when enough bytes are in the buffer. -/
theorem ensureReadLoop_run (rounds : Nat) :
    ∀ {ss : Stream} {needed maxSpace : Nat}, 0 < needed → needed ≤ rounds → needed ≤ maxSpace →
      needed ≤ ss.incoming.length → ss.unread.length + maxSpace ≤ ss.readBufSize →
      ss.written.length ≤ ss.writeBufSize →
      ∃ after, ensureReadLoop rounds needed maxSpace ss = .ok () after ∧
        ss.unread.length + needed ≤ after.unread.length ∧ ss.Moved after [] [] := by
  induction rounds with
  | zero =>
      intro ss needed maxSpace positive fuel
      omega
  | succ rounds ih =>
      intro ss needed maxSpace positive fuel space some fits short
      obtain ⟨m, middle, read, more, bound, grown, moved⟩ :=
        @socketRead_run ss maxSpace (by omega) (by omega) fits short
      unfold ensureReadLoop
      rw [require_bind (show 0 < maxSpace by omega), EStateM.bind_ok read, if_neg (by omega)]
      by_cases few : m < needed
      · rw [if_pos few]
        have left : ss.incoming.length = m + middle.incoming.length := by
          have lengths := congrArg List.length moved.input
          rw [Stream.input, Stream.input, List.nil_append, List.length_append, List.length_append] at lengths
          omega
        obtain ⟨after, run, enough, rest⟩ := ih (show 0 < needed - m by omega) (by omega)
          (show needed - m ≤ maxSpace - m by omega) (by omega)
          (by rw [moved.readBufSize]; omega) moved.valid.written
        exact ⟨after, run, by omega, moved.trans rest⟩
      · rw [if_neg few]
        exact ⟨middle, rfl, by omega, moved⟩

theorem structuredStreamEnsureRead_run {n : Nat} (valid : ss.Valid) (fits : n ≤ ss.readBufSize)
    (enough : n ≤ ss.input.length) :
    ∃ after, structuredStreamEnsureRead n ss = .ok () after ∧ n ≤ after.unread.length ∧ ss.Moved after [] [] := by
  unfold structuredStreamEnsureRead
  rw [EStateM.bind_ok (EStateM.get_apply ss)]
  dsimp only
  rw [Stream.input, List.length_append] at enough
  have short := valid.unread
  by_cases avail : n ≤ ss.unread.length
  · rw [if_pos avail]
    exact ⟨ss, rfl, avail, .refl valid⟩
  · rw [if_neg avail, if_neg (by omega)]
    obtain ⟨after, run, grown, moved⟩ := @ensureReadLoop_run (n - ss.unread.length) ss (n - ss.unread.length)
      (ss.readBufSize - ss.unread.length) (by omega) le_rfl (by omega) (by omega) (by omega) valid.written
    exact ⟨after, run, by omega, moved⟩

theorem takeUnread_run {bytes rest : List UInt8} (valid : ss.Valid) (input : ss.input = bytes ++ rest)
    (enough : bytes.length ≤ ss.unread.length) :
    ∃ after, takeUnread bytes.length ss = .ok bytes after ∧ ss.Moved after bytes [] ∧
      after.unread.length = ss.unread.length - bytes.length := by
  have front : ss.unread.take bytes.length = bytes := by
    have firsts := congrArg (List.take bytes.length) input
    rw [Stream.input, List.take_append_of_le_length enough, List.take_left] at firsts
    exact firsts
  refine ⟨{ ss with unread := ss.unread.drop bytes.length }, ?_,
    ⟨?_, (List.append_nil _).symm, rfl, rfl, ⟨?_, valid.written⟩⟩, List.length_drop⟩
  · unfold takeUnread
    rw [EStateM.bind_ok (EStateM.get_apply ss), front]
    rfl
  · have split := List.take_append_drop bytes.length ss.unread
    rw [front] at split
    change ss.unread ++ ss.incoming = bytes ++ (ss.unread.drop bytes.length ++ ss.incoming)
    rw [← List.append_assoc, split]
  · exact (List.drop_sublist _ _).length_le.trans valid.unread

theorem structuredStreamFlush_run (valid : ss.Valid) :
    ∃ after, structuredStreamFlush ss = .ok () after ∧ ss.Moved after [] [] ∧ after.written = [] := by
  refine ⟨_, rfl, ⟨rfl, ?_, rfl, rfl, ⟨valid.unread, Nat.zero_le _⟩⟩, rfl⟩
  simp [Stream.output]

theorem structuredStreamWriteBytes_run {bytes : List UInt8} (valid : ss.Valid)
    (fits : bytes.length ≤ ss.writeBufSize) :
    ∃ after, structuredStreamWriteBytes bytes ss = .ok () after ∧ ss.Moved after [] bytes := by
  unfold structuredStreamWriteBytes structuredStreamEnsureWrite
  by_cases avail : bytes.length ≤ ss.writeBufSize - ss.written.length
  · refine ⟨{ ss with written := ss.written ++ bytes }, ?_, rfl, ?_, rfl, rfl, ⟨valid.unread, ?_⟩⟩
    · rw [EStateM.bind_ok (by rw [EStateM.bind_ok (EStateM.get_apply ss), if_pos avail, EStateM.pure_apply])]
      rfl
    · exact (List.append_assoc _ _ _).symm
    · have short := valid.written
      change (ss.written ++ bytes).length ≤ ss.writeBufSize
      rw [List.length_append]
      omega
  · refine ⟨{ ss with written := bytes, outgoing := ss.outgoing ++ ss.written }, ?_, rfl, rfl, rfl, rfl,
      ⟨valid.unread, fits⟩⟩
    rw [EStateM.bind_ok (by
      rw [EStateM.bind_ok (EStateM.get_apply ss), if_neg avail, if_neg (Nat.not_lt.mpr fits)]
      exact rfl)]
    rfl

end

/-- The action takes these bytes, adds these bytes and returns this value, with buffers of at least these sizes. -/
def Exchanges {S α : Type} [HasStream S] (readSize writeSize : Nat) (action : EStateM Failure S α)
    (taken added : List UInt8) (value : α) : Prop :=
  ∀ state : S, (stream state).Valid → readSize ≤ (stream state).readBufSize →
    writeSize ≤ (stream state).writeBufSize → taken <+: (stream state).input →
      ∃ after, action state = .ok value (withStream state after) ∧ (stream state).Moved after taken added

/-- Bytes with their length before them. -/
def prefixed (bytes : List UInt8) : List UInt8 := bytesOf 2 bytes.length ++ bytes

theorem prefixed_length (bytes : List UInt8) : (prefixed bytes).length = bytes.length + 2 := by
  rw [prefixed, List.length_append, bytesOf_length, Nat.add_comm]

section
variable {S α β : Type} [HasStream S] {readSize writeSize : Nat}

theorem exchanges_pure (value : α) : Exchanges readSize writeSize (pure value : EStateM Failure S α) [] [] value :=
  fun state valid _ _ _ => ⟨stream state, by rw [withStream_stream]; rfl, .refl valid⟩

theorem Exchanges.bind {first : EStateM Failure S α} {next : α → EStateM Failure S β}
    {taken added more others : List UInt8} {value : α} {result : β}
    (start : Exchanges readSize writeSize first taken added value)
    (rest : Exchanges readSize writeSize (next value) more others result) :
    Exchanges readSize writeSize (first >>= next) (taken ++ more) (added ++ others) result := by
  intro state valid read write part
  obtain ⟨middle, run, moved⟩ := start state valid read write ((List.prefix_append _ _).trans part)
  have remains : more <+: middle.input := by
    rw [moved.input] at part
    exact (List.prefix_append_right_inj taken).mp part
  obtain ⟨after, again, further⟩ := rest (withStream state middle)
    (by rw [stream_withStream]; exact moved.valid)
    (by rw [stream_withStream, moved.readBufSize]; exact read)
    (by rw [stream_withStream, moved.writeBufSize]; exact write) (by rw [stream_withStream]; exact remains)
  rw [stream_withStream] at further
  rw [withStream_withStream] at again
  exact ⟨after, by rw [EStateM.bind_ok run, again], moved.trans further⟩

theorem Exchanges.map {action : EStateM Failure S α} {taken added : List UInt8} {value : α} (f : α → β)
    (exchanges : Exchanges readSize writeSize action taken added value) :
    Exchanges readSize writeSize (f <$> action) taken added (f value) := by
  intro state valid read write part
  obtain ⟨after, run, moved⟩ := exchanges state valid read write part
  exact ⟨after, by rw [EStateM.map_apply, run], moved⟩

theorem onStream_ok {action : StreamM α} {state : S} {value : α} {after : Stream}
    (run : action (stream state) = .ok value after) : onStream action state = .ok value (withStream state after) := by
  rw [onStream, run]

theorem onStream_error {action : StreamM α} {state : S} {failure : Failure} {after : Stream}
    (run : action (stream state) = .error failure after) :
    onStream action state = .error failure (withStream state after) := by
  rw [onStream, run]

/-- A call on the stream that returns has returned on the stream. -/
theorem of_onStream_ok {action : StreamM α} {state after : S} {value : α}
    (run : onStream action state = .ok value after) :
    ∃ ss, action (stream state) = .ok value ss ∧ after = withStream state ss := by
  rw [onStream] at run
  cases result : action (stream state) with
  | ok other ss =>
      rw [result] at run
      cases run
      exact ⟨ss, rfl, rfl⟩
  | error failure ss =>
      rw [result] at run
      cases run

/-- A call on the stream of a state exchanges the same bytes. -/
theorem Exchanges.on {action : StreamM α} {taken added : List UInt8} {value : α}
    (exchanges : Exchanges readSize writeSize action taken added value) :
    Exchanges readSize writeSize (onStream action : EStateM Failure S α) taken added value := by
  intro state valid read write part
  obtain ⟨after, run, moved⟩ := exchanges (stream state) valid read write part
  have run : action (stream state) = .ok value after := run
  exact ⟨after, by rw [onStream, run], moved⟩

end

section
variable {readSize writeSize : Nat}

theorem exchanges_readBytes {bytes : List UInt8} (fits : bytes.length ≤ readSize) :
    Exchanges readSize writeSize (structuredStreamReadBytes bytes.length) bytes [] bytes := by
  intro ss valid read _ part
  obtain ⟨middle, run, avail, moved⟩ := structuredStreamEnsureRead_run valid (fits.trans read) part.length_le
  have same : ss.input = middle.input := moved.input
  obtain ⟨rest, input⟩ := part
  obtain ⟨after, again, further, _⟩ := takeUnread_run moved.valid (same.symm.trans input.symm) avail
  have run : structuredStreamEnsureRead bytes.length ss = .ok () middle := run
  exact ⟨after, by rw [structuredStreamReadBytes, EStateM.bind_ok run, again]; rfl, moved.trans further⟩

theorem exchanges_readUint {width value : Nat} (fits : width ≤ readSize) (small : value < 256 ^ width) :
    Exchanges readSize writeSize (readUint width) (bytesOf width value) [] value := by
  have bytes := @exchanges_readBytes readSize writeSize (bytesOf width value) (by rw [bytesOf_length]; exact fits)
  rw [bytesOf_length] at bytes
  have both : Exchanges readSize writeSize (readUint width) (bytesOf width value ++ []) []
      (valueOf (bytesOf width value)) := bytes.bind (exchanges_pure _)
  rw [valueOf_bytesOf_of_lt width value small, List.append_nil] at both
  exact both

/-- A word is read as it was written. -/
theorem exchanges_readWord (word : Word) (fits : 8 ≤ readSize) :
    Exchanges readSize writeSize (BitVec.ofNat 64 <$> readUint 8) (bytesOf 8 word.toNat) [] word := by
  have number := @exchanges_readUint readSize writeSize 8 word.toNat fits (by have := word.isLt; omega)
  have mapped := number.map (BitVec.ofNat 64)
  rw [BitVec.ofNat_toNat, BitVec.setWidth_eq] at mapped
  exact mapped

theorem exchanges_readPrefixed {bytes : List UInt8} (short : bytes.length < 2 ^ 16)
    (fits : bytes.length + 2 ≤ readSize) :
    Exchanges readSize writeSize structuredStreamReadUint16PrefixedBytesInplace (prefixed bytes) [] bytes := by
  intro ss valid read _ part
  change ss.Valid at valid
  change readSize ≤ ss.readBufSize at read
  change prefixed bytes <+: ss.input at part
  have long := part.length_le
  rw [prefixed_length] at long
  obtain ⟨rest, input⟩ := part
  obtain ⟨first, run, avail, moved⟩ := structuredStreamEnsureRead_run valid (show 2 ≤ ss.readBufSize by omega)
    (show 2 ≤ ss.input.length by omega)
  have firstInput : first.input = prefixed bytes ++ rest := by
    rw [input]
    exact moved.input.symm
  have number : valueOf (first.unread.take 2) = bytes.length := by
    have front := congrArg (List.take 2) firstInput
    rw [Stream.input, List.take_append_of_le_length avail, prefixed, List.append_assoc,
      List.take_left' (bytesOf_length 2 _)] at front
    rw [front, valueOf_bytesOf_of_lt 2 _ (by omega)]
  obtain ⟨second, look, ready, kept⟩ := structuredStreamEnsureRead_run moved.valid
    (show bytes.length + 2 ≤ first.readBufSize by rw [moved.readBufSize]; omega)
    (by rw [firstInput, List.length_append, prefixed_length]; omega)
  have secondInput : second.input = bytesOf 2 bytes.length ++ (bytes ++ rest) := by
    rw [← List.append_assoc, ← prefixed, ← firstInput]
    exact kept.input.symm
  obtain ⟨third, skip, skipped, left⟩ := takeUnread_run kept.valid secondInput (by rw [bytesOf_length]; omega)
  have thirdInput : third.input = bytes ++ rest := by
    rw [skipped.input] at secondInput
    exact List.append_cancel_left secondInput
  rw [bytesOf_length] at skip left
  obtain ⟨after, take, taken, _⟩ := takeUnread_run skipped.valid thirdInput (by omega)
  refine ⟨after, ?_, ((moved.trans kept).trans skipped).trans taken⟩
  unfold structuredStreamReadUint16PrefixedBytesInplace
  rw [EStateM.bind_ok run, EStateM.bind_ok (EStateM.get_apply first), number,
    EStateM.bind_ok (show underrun _ first = .ok () second by rw [underrun, look]), EStateM.bind_ok skip, take]
  rfl

theorem exchanges_writeBytes {bytes : List UInt8} (fits : bytes.length ≤ writeSize) :
    Exchanges readSize writeSize (structuredStreamWriteBytes bytes) [] bytes () := by
  intro ss valid _ write _
  exact structuredStreamWriteBytes_run valid (fits.trans write)

theorem exchanges_writeUint {width : Nat} (value : Nat) (fits : width ≤ writeSize) :
    Exchanges readSize writeSize (writeUint width value) [] (bytesOf width value) () :=
  exchanges_writeBytes (by rw [bytesOf_length]; exact fits)

theorem exchanges_writePrefixed {bytes : List UInt8} (short : bytes.length < 2 ^ 16) (fits : bytes.length ≤ writeSize)
    (room : 2 ≤ writeSize) :
    Exchanges readSize writeSize (structuredStreamWriteUint16PrefixedBytes bytes) [] (prefixed bytes) () := by
  unfold structuredStreamWriteUint16PrefixedBytes
  dsimp only
  rw [Nat.mod_eq_of_lt short]
  refine (exchanges_writeUint bytes.length room).bind ?_
  split
  · rename_i none
    rw [List.length_eq_zero_iff.mp none]
    exact exchanges_pure ()
  · rw [List.take_length]
    exact exchanges_writeBytes fits

theorem exchanges_flush : Exchanges readSize writeSize structuredStreamFlush [] [] () := by
  intro ss valid _ _ _
  obtain ⟨after, run, moved, _⟩ := structuredStreamFlush_run valid
  exact ⟨after, run, moved⟩

end

end Menoetius
