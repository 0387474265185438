import Menoetius.StructuredStream
import Menoetius.Lib.FileImage

/-
This file follows the read buffer through the calls of `read`.
-/

namespace Menoetius
open LittleEndian FileImage

/-- What `read` does while the other end has bytes left. -/
inductive ReadEvent where
  /-- It fails with `EAGAIN`. -/
  | again
  /-- One byte and as many more have arrived, or all if there are fewer. -/
  | arrived (more : Nat)

/-- The read buffer, the bytes that the other end sends, and what `read` will do. -/
structure ReadStream where
  readBufSize : Nat
  readBuf : List UInt8
  readI : Nat
  readN : Nat
  incoming : List UInt8
  events : List ReadEvent

abbrev ReadM := EStateM Failure ReadStream

namespace ReadStream

def structuredStreamNew (readBufSize : Nat) (incoming : List UInt8) (events : List ReadEvent) : ReadStream :=
  { readBufSize, readBuf := List.replicate readBufSize 0, readI := 0, readN := 0, incoming, events }

/-- `read` puts the next bytes behind those of the buffer. -/
def receive (rs : ReadStream) (m : Nat) : ReadStream :=
  { rs with
    readBuf := writeAt rs.readBuf rs.readN (rs.incoming.take m)
    readN := rs.readN + m
    incoming := rs.incoming.drop m }

/-- One call of `read`, with no number for `EAGAIN`. Where nothing is known of it, all bytes have arrived. -/
def socketRead (maxSpace : Nat) : ReadM (Option Nat) := fun rs =>
  match rs.events with
  | [] =>
      let m := min maxSpace rs.incoming.length
      .ok (some m) (rs.receive m)
  | .again :: events => .ok none { rs with events }
  | .arrived more :: events =>
      let m := min (min maxSpace rs.incoming.length) (more + 1)
      .ok (some m) { rs.receive m with events }

/-- The loop of `structured_stream_ensure_read`. -/
def ensureReadLoop : Nat → Nat → Nat → ReadM Unit
  | 0, _, _ => throw (.abort .ensureReadRounds)
  | rounds + 1, needed, maxSpace => do
      require (0 < maxSpace) .ensureReadSpace
      match ← socketRead maxSpace with
      | none => ensureReadLoop rounds needed maxSpace
      | some m =>
          if m = 0 then throw (.code .structuredStreamEof)
          else if m < needed then ensureReadLoop rounds (needed - m) (maxSpace - m)
          else pure ()

/-- The bytes between `read_i` and `read_n`. -/
def unread (rs : ReadStream) : List UInt8 := readAt rs.readBuf rs.readI (rs.readN - rs.readI)

/-- The unread bytes are moved to the front of the buffer. -/
def discard (rs : ReadStream) : ReadStream :=
  if 0 < rs.readI then
    { rs with readBuf := writeAt rs.readBuf 0 rs.unread, readN := rs.readN - rs.readI, readI := 0 }
  else rs

def structuredStreamEnsureRead (n : Nat) : ReadM Unit := do
  let rs ← get
  require (rs.readI ≤ rs.readN) .readCursor
  if n ≤ rs.readN - rs.readI then pure ()
  else
    set rs.discard
    let rs ← get
    let needed := n - rs.readN
    let maxSpace := rs.readBufSize - rs.readN
    if maxSpace < needed then throw (.code .structuredStreamBufTooSmall)
    -- Each round uses up one event, and without events the second round ends.
    else ensureReadLoop (rs.events.length + 2) needed maxSpace

/-- The next bytes are behind `read_i`. -/
def takeUnread (n : Nat) : ReadM (List UInt8) := do
  let rs ← get
  set { rs with readI := rs.readI + n }
  require (rs.readI + n ≤ rs.readN) .readCursor
  pure (readAt rs.readBuf rs.readI n)

def structuredStreamReadBytes (n : Nat) : ReadM (List UInt8) := do
  structuredStreamEnsureRead n
  takeUnread n

/-- A stream that ends inside the bytes of a value. -/
def underrun (action : ReadM Unit) : ReadM Unit := fun rs =>
  match action rs with
  | .error (.code .structuredStreamEof) after => .error (.code .structuredStreamBufUnderrun) after
  | result => result

def structuredStreamReadUint16PrefixedBytesInplace : ReadM (List UInt8) := do
  let bytes ← structuredStreamReadBytes 2
  let n := valueOf bytes
  -- The length is only looked at, so that the position goes back.
  modify fun rs => { rs with readI := rs.readI - 2 }
  underrun (structuredStreamEnsureRead (n + 2))
  modify fun rs => { rs with readI := rs.readI + 2 }
  takeUnread n

def structuredStreamReadUint16PrefixedBytes (bufSize : Nat) : ReadM (List UInt8) := do
  let bytes ← structuredStreamReadUint16PrefixedBytesInplace
  if bufSize < bytes.length then throw (.code .structuredStreamBufTooSmall)
  else pure bytes

/-- The string is copied with a NUL byte behind it. -/
def structuredStreamReadUint16PrefixedString (bufSize : Nat) : ReadM (List UInt8) := do
  let bytes ← structuredStreamReadUint16PrefixedBytesInplace
  if bufSize - 1 < bytes.length ∨ bufSize = 0 then throw (.code .structuredStreamBufTooSmall)
  else pure (bytes ++ [0])

def structuredStreamReadBytesInplace (n : Nat) : ReadM (List UInt8) := do
  underrun (structuredStreamEnsureRead n)
  takeUnread n

end ReadStream

/-- The numbers of a fixed width that can be read. -/
inductive Number where
  | uint8
  | uint16
  | uint32
  | uint64
  | int16
  | int32
  | int64
  | float
  | double

def Number.width : Number → Nat
  | .uint8 => 1
  | .uint16 | .int16 => 2
  | .uint32 | .int32 | .float => 4
  | .uint64 | .int64 | .double => 8

/-- The number that bytes stand for, where a floating point number is given by its bits. -/
def Number.decode (kind : Number) (bytes : List UInt8) : Int :=
  match kind with
  | .int16 | .int32 | .int64 => Int.bmod (valueOf bytes) (256 ^ kind.width)
  | _ => valueOf bytes

/-- The calls that read from the stream. -/
inductive ReadCall where
  | number (kind : Number)
  | bytes (n : Nat)
  | prefixedBytes (bufSize : Nat)
  | prefixedString (bufSize : Nat)
  | prefixedInplace
  | bytesInplace (n : Nat)

/-- What a call hands over. -/
inductive ReadValue where
  | number (value : Int)
  | bytes (data : List UInt8)

def ReadCall.run : ReadCall → ReadM ReadValue
  | .number kind => (fun data => .number (kind.decode data)) <$> ReadStream.structuredStreamReadBytes kind.width
  | .bytes n => .bytes <$> ReadStream.structuredStreamReadBytes n
  | .prefixedBytes bufSize => .bytes <$> ReadStream.structuredStreamReadUint16PrefixedBytes bufSize
  | .prefixedString bufSize => .bytes <$> ReadStream.structuredStreamReadUint16PrefixedString bufSize
  | .prefixedInplace => .bytes <$> ReadStream.structuredStreamReadUint16PrefixedBytesInplace
  | .bytesInplace n => .bytes <$> ReadStream.structuredStreamReadBytesInplace n

/-- The calls one after the other, with what each of them returns. -/
def runReadCalls : List ReadCall → ReadStream → List (Except Failure ReadValue) × ReadStream
  | [], rs => ([], rs)
  | call :: calls, rs =>
      match call.run rs with
      | .ok value after => ((runReadCalls calls after).1.cons (.ok value), (runReadCalls calls after).2)
      | .error failure after => ((runReadCalls calls after).1.cons (.error failure), (runReadCalls calls after).2)

/-- A value of a known length at the start of the bytes, and the bytes behind it. -/
def parseBytes (n : Nat) (short : Err) (input : List UInt8) : Except Failure (List UInt8) × List UInt8 :=
  if n ≤ input.length then (.ok (input.take n), input.drop n) else (.error (.code short), input)

/-- A value behind its length. -/
def parsePrefixed (input : List UInt8) : Except Failure (List UInt8) × List UInt8 :=
  if input.length < 2 then (.error (.code .structuredStreamEof), input)
  else
    let n := valueOf (input.take 2)
    if n + 2 ≤ input.length then (.ok ((input.drop 2).take n), input.drop (n + 2))
    else (.error (.code .structuredStreamBufUnderrun), input)

/-- What a call reads from the bytes themselves, and the bytes that are left. -/
def ReadCall.parse (call : ReadCall) (input : List UInt8) : Except Failure ReadValue × List UInt8 :=
  match call with
  | .number kind =>
      let parsed := parseBytes kind.width .structuredStreamEof input
      (parsed.1.map fun data => .number (kind.decode data), parsed.2)
  | .bytes n =>
      let parsed := parseBytes n .structuredStreamEof input
      (parsed.1.map .bytes, parsed.2)
  | .prefixedBytes bufSize =>
      let parsed := parsePrefixed input
      ((parsed.1.bind fun data =>
        if bufSize < data.length then .error (.code .structuredStreamBufTooSmall) else .ok data).map .bytes, parsed.2)
  | .prefixedString bufSize =>
      let parsed := parsePrefixed input
      ((parsed.1.bind fun data =>
        if data.length < bufSize then .ok (data ++ [0])
        else .error (.code .structuredStreamBufTooSmall)).map .bytes, parsed.2)
  | .prefixedInplace =>
      let parsed := parsePrefixed input
      (parsed.1.map .bytes, parsed.2)
  | .bytesInplace n =>
      let parsed := parseBytes n .structuredStreamBufUnderrun input
      (parsed.1.map .bytes, parsed.2)

/-- How many bytes a call needs in the buffer at once. -/
def ReadCall.need : ReadCall → List UInt8 → Nat
  | .number kind, _ => kind.width
  | .bytes n, _ | .bytesInplace n, _ => n
  | _, input => if input.length < 2 then 2 else valueOf (input.take 2) + 2

def parseCalls : List ReadCall → List UInt8 → List (Except Failure ReadValue)
  | [], _ => []
  | call :: calls, input => (call.parse input).1 :: parseCalls calls (call.parse input).2

/-- The buffer has room for what each call needs. -/
def CallsFit (readBufSize : Nat) : List ReadCall → List UInt8 → Prop
  | [], _ => True
  | call :: calls, input => call.need input ≤ readBufSize ∧ CallsFit readBufSize calls (call.parse input).2

namespace ReadStream

/-- All bytes that can still be read. -/
def input (rs : ReadStream) : List UInt8 := rs.unread ++ rs.incoming

/-- The positions are in order and inside the buffer. -/
structure Valid (rs : ReadStream) : Prop where
  size : rs.readBuf.length = rs.readBufSize
  order : rs.readI ≤ rs.readN
  inside : rs.readN ≤ rs.readBufSize

/-- The buffer may have moved and filled, but the same bytes can be read. -/
structure Keeps (rs after : ReadStream) : Prop where
  valid : after.Valid
  input : after.input = rs.input
  size : after.readBufSize = rs.readBufSize

theorem Keeps.trans {first second third : ReadStream} (start : first.Keeps second) (rest : second.Keeps third) :
    first.Keeps third := ⟨rest.valid, rest.input.trans start.input, rest.size.trans start.size⟩

theorem Valid.unread_length {rs : ReadStream} (valid : rs.Valid) : rs.unread.length = rs.readN - rs.readI := by
  have size := valid.size
  have inside := valid.inside
  rw [unread, readAt, List.length_take, List.length_drop]
  omega

/-- The buffer is what was read, the unread bytes and the rest. -/
theorem Valid.split {rs : ReadStream} (valid : rs.Valid) :
    ∃ front back, rs.readBuf = front ++ (rs.unread ++ back) ∧ front.length = rs.readI := by
  have size := valid.size
  have order := valid.order
  have inside := valid.inside
  refine ⟨rs.readBuf.take rs.readI, (rs.readBuf.drop rs.readI).drop (rs.readN - rs.readI), ?_, ?_⟩
  · rw [unread, readAt, List.take_append_drop, List.take_append_drop]
  · rw [List.length_take]
    omega

/-- The bytes in the middle of a buffer. -/
theorem readAt_middle (front middle back : List UInt8) : readAt (front ++ (middle ++ back)) front.length middle.length = middle := by
  rw [readAt, List.drop_left, List.take_left]

theorem receive_keeps {rs : ReadStream} (valid : rs.Valid) {m : Nat} (some : m ≤ rs.incoming.length)
    (room : rs.readN + m ≤ rs.readBufSize) :
    rs.Keeps (rs.receive m) ∧ (rs.receive m).readI = rs.readI := by
  obtain ⟨front, back, split, length⟩ := valid.split
  have order := valid.order
  have unreadLength := valid.unread_length
  have behind : (front ++ rs.unread).length = rs.readN := by
    rw [List.length_append, length, unreadLength]
    omega
  have taken : (rs.incoming.take m).length = m := by
    rw [List.length_take]
    omega
  have buffer : (rs.receive m).readBuf =
      front ++ ((rs.unread ++ rs.incoming.take m) ++ back.drop m) := by
    change writeAt rs.readBuf rs.readN (rs.incoming.take m) = _
    rw [split, ← List.append_assoc, ← behind, writeAt_over, taken]
    simp only [List.append_assoc]
  have unread : (rs.receive m).unread = rs.unread ++ rs.incoming.take m := by
    have count : (rs.receive m).readN - (rs.receive m).readI = (rs.unread ++ rs.incoming.take m).length := by
      rw [List.length_append, unreadLength, taken]
      change rs.readN + m - rs.readI = _
      omega
    rw [ReadStream.unread, count, buffer]
    change readAt _ rs.readI _ = _
    rw [← length, readAt_middle]
  refine ⟨⟨⟨?_, ?_, room⟩, ?_, rfl⟩, rfl⟩
  · change (writeAt rs.readBuf rs.readN (rs.incoming.take m)).length = rs.readBufSize
    rw [writeAt_length _ _ _ (by rw [taken, valid.size]; exact room), valid.size]
  · exact order.trans (Nat.le_add_right _ _)
  · rw [input, unread, List.append_assoc]
    change rs.unread ++ (rs.incoming.take m ++ rs.incoming.drop m) = _
    rw [List.take_append_drop]
    rfl

theorem discard_keeps {rs : ReadStream} (valid : rs.Valid) :
    rs.Keeps rs.discard ∧ rs.discard.readI = 0 ∧ rs.discard.unread = rs.unread := by
  unfold discard
  split
  next moved =>
    obtain ⟨front, back, split, length⟩ := valid.split
    have order := valid.order
    have inside := valid.inside
    have unreadLength := valid.unread_length
    have buffer : writeAt rs.readBuf 0 rs.unread = [] ++ (rs.unread ++ rs.readBuf.drop rs.unread.length) :=
      writeAt_over [] rs.readBuf rs.unread
    have unread : ReadStream.unread { rs with
        readBuf := writeAt rs.readBuf 0 rs.unread
        readN := rs.readN - rs.readI
        readI := 0 } = rs.unread := by
      rw [ReadStream.unread]
      change readAt (writeAt rs.readBuf 0 rs.unread) 0 (rs.readN - rs.readI - 0) = _
      rw [buffer, Nat.sub_zero, ← unreadLength]
      exact readAt_middle [] rs.unread _
    refine ⟨⟨⟨?_, Nat.zero_le _, ?_⟩, ?_, rfl⟩, rfl, unread⟩
    · exact (writeAt_length _ _ _ (by rw [unreadLength, valid.size]; omega)).trans valid.size
    · change rs.readN - rs.readI ≤ rs.readBufSize
      omega
    · rw [input, unread]
      rfl
  next still => exact ⟨⟨valid, rfl, rfl⟩, by omega, rfl⟩

/-- How many rounds the loop takes at most. -/
def rounds (rs : ReadStream) : Nat := rs.events.length + if rs.incoming = [] then 1 else 2

/-- A round brings bytes, and the events run out. -/
theorem socketRead_keeps {rs : ReadStream} (valid : rs.Valid) {maxSpace : Nat} (space : 0 < maxSpace)
    (room : rs.readN + maxSpace = rs.readBufSize) :
    ∃ result after, socketRead maxSpace rs = .ok result after ∧ rs.Keeps after ∧ after.readI = rs.readI ∧
      (result = none → after.readN = rs.readN ∧ after.incoming = rs.incoming ∧ after.rounds < rs.rounds) ∧
      ∀ m, result = some m → m ≤ maxSpace ∧ m ≤ rs.incoming.length ∧ after.readN = rs.readN + m ∧
        after.incoming = rs.incoming.drop m ∧ (m = 0 → rs.incoming = []) ∧
        (0 < m → m = maxSpace ∨ after.rounds < rs.rounds) := by
  have shrink : ∀ m, (if rs.incoming.drop m = [] then 1 else 2) ≤ if rs.incoming = [] then 1 else 2 := by
    intro m
    by_cases empty : rs.incoming = []
    · simp [empty]
    · rw [if_neg empty]
      split <;> omega
  unfold socketRead
  split
  next events =>
    have kept := @receive_keeps rs valid (min maxSpace rs.incoming.length) (by omega) (by omega)
    refine ⟨_, _, rfl, kept.1, kept.2, fun none => (by cases none), fun m found => ?_⟩
    cases found
    refine ⟨by omega, by omega, rfl, rfl, fun none => List.eq_nil_of_length_eq_zero (by omega), fun more => ?_⟩
    by_cases full : min maxSpace rs.incoming.length = maxSpace
    · exact Or.inl full
    · right
      have all : min maxSpace rs.incoming.length = rs.incoming.length := by omega
      have empty : (rs.receive (min maxSpace rs.incoming.length)).incoming = [] := by
        change rs.incoming.drop _ = []
        rw [all, List.drop_length]
      have some : rs.incoming ≠ [] := fun none => by
        rw [none] at more
        simp at more
      rw [rounds, rounds, if_pos empty, if_neg some]
      exact Nat.lt_succ_self _
  next events later =>
    refine ⟨_, _, rfl, ⟨⟨valid.size, valid.order, valid.inside⟩, rfl, rfl⟩, rfl, fun _ => ⟨rfl, rfl, ?_⟩,
      fun m found => by cases found⟩
    rw [rounds, rounds, later]
    simp
  next more events later =>
    have kept := @receive_keeps rs valid (min (min maxSpace rs.incoming.length) (more + 1)) (by omega) (by omega)
    refine ⟨_, _, rfl, ⟨⟨kept.1.valid.size, kept.1.valid.order, kept.1.valid.inside⟩, kept.1.input, rfl⟩, rfl,
      fun none => (by cases none), fun m found => ?_⟩
    cases found
    refine ⟨by omega, by omega, rfl, rfl, fun none => List.eq_nil_of_length_eq_zero (by omega), fun _ => Or.inr ?_⟩
    have less := shrink (min (min maxSpace rs.incoming.length) (more + 1))
    rw [rounds, rounds, later]
    change events.length + (if rs.incoming.drop _ = [] then 1 else 2) < _
    rw [List.length_cons]
    omega

/-- The loop ends with the bytes that are needed, or at the end of the bytes. -/
theorem ensureReadLoop_ends (fuel : Nat) : ∀ {rs : ReadStream} {needed maxSpace : Nat}, rs.Valid → 0 < needed →
    needed ≤ maxSpace → rs.readN + maxSpace = rs.readBufSize → rs.rounds ≤ fuel →
    ∃ after, rs.Keeps after ∧ after.readI = rs.readI ∧
      ((needed ≤ rs.incoming.length ∧ ensureReadLoop fuel needed maxSpace rs = .ok () after ∧
          rs.readN + needed ≤ after.readN) ∨
        (rs.incoming.length < needed ∧
          ensureReadLoop fuel needed maxSpace rs = .error (.code .structuredStreamEof) after)) := by
  induction fuel with
  | zero =>
      intro rs needed maxSpace valid positive space room enough
      rw [rounds] at enough
      split at enough <;> omega
  | succ fuel ih =>
      intro rs needed maxSpace valid positive space room enough
      obtain ⟨result, middle, read, kept, still, again, got⟩ := socketRead_keeps valid (by omega) room
      rw [ensureReadLoop, require_bind (show 0 < maxSpace by omega), EStateM.bind_ok read]
      have size := kept.size
      cases result with
      | none =>
          obtain ⟨position, incoming, fewer⟩ := again rfl
          obtain ⟨after, rest, stays, ends⟩ := ih kept.valid positive space (by omega) (by omega)
          rw [incoming, position] at ends
          exact ⟨after, kept.trans rest, stays.trans still, ends⟩
      | some m =>
          obtain ⟨bound, some, position, incoming, nothing, fewer⟩ := got m rfl
          have left : middle.incoming.length = rs.incoming.length - m := by rw [incoming, List.length_drop]
          dsimp only
          by_cases ended : m = 0
          · rw [if_pos ended]
            have empty := nothing ended
            exact ⟨middle, kept, still, Or.inr ⟨by rw [empty]; exact positive, rfl⟩⟩
          · rw [if_neg ended]
            by_cases few : m < needed
            · rw [if_pos few]
              have fewer := (fewer (by omega)).resolve_left (by omega)
              obtain ⟨after, rest, stays, ends⟩ := ih kept.valid (show 0 < needed - m by omega)
                (show needed - m ≤ maxSpace - m by omega) (by omega) (by omega)
              refine ⟨after, kept.trans rest, stays.trans still, ends.imp ?_ ?_⟩
              · rintro ⟨more, run, filled⟩
                exact ⟨by omega, run, by omega⟩
              · rintro ⟨short, run⟩
                exact ⟨by omega, run⟩
            · rw [if_neg few]
              exact ⟨middle, kept, still, Or.inl ⟨by omega, rfl, by omega⟩⟩

/-- A call has the bytes in the buffer, or the stream ends before them, or they do not fit. -/
theorem structuredStreamEnsureRead_ends {rs : ReadStream} (valid : rs.Valid) (n : Nat) :
    ∃ after, rs.Keeps after ∧
      ((n ≤ rs.readBufSize ∧ n ≤ rs.input.length ∧ structuredStreamEnsureRead n rs = .ok () after ∧
          after.readI + n ≤ after.readN) ∨
        (n ≤ rs.readBufSize ∧ rs.input.length < n ∧
          structuredStreamEnsureRead n rs = .error (.code .structuredStreamEof) after) ∨
        (rs.readBufSize < n ∧
          structuredStreamEnsureRead n rs = .error (.code .structuredStreamBufTooSmall) after)) := by
  have order := valid.order
  have inside := valid.inside
  have total : rs.input.length = rs.readN - rs.readI + rs.incoming.length := by
    rw [input, List.length_append, valid.unread_length]
  unfold structuredStreamEnsureRead
  rw [EStateM.bind_ok (EStateM.get_apply rs), require_bind order]
  by_cases avail : n ≤ rs.readN - rs.readI
  · rw [if_pos avail]
    exact ⟨rs, ⟨valid, rfl, rfl⟩, Or.inl ⟨by omega, by omega, rfl, by omega⟩⟩
  · rw [if_neg avail, EStateM.bind_ok (EStateM.set_apply _ _), EStateM.bind_ok (EStateM.get_apply _)]
    obtain ⟨kept, first, same⟩ := discard_keeps valid
    have position : rs.discard.readN = rs.readN - rs.readI := by
      have length := kept.valid.unread_length
      rw [same, valid.unread_length, first] at length
      omega
    have incoming : rs.discard.incoming.length = rs.incoming.length := by
      have length := congrArg List.length kept.input
      rw [total, input, List.length_append, same, valid.unread_length] at length
      omega
    have size := kept.size
    rw [position, size]
    by_cases fits : n ≤ rs.readBufSize
    · rw [if_neg (by omega)]
      obtain ⟨after, rest, stays, ends⟩ := ensureReadLoop_ends (rs.discard.events.length + 2) kept.valid
        (show 0 < n - (rs.readN - rs.readI) by omega)
        (show n - (rs.readN - rs.readI) ≤ rs.readBufSize - (rs.readN - rs.readI) by omega) (by omega)
        (by rw [rounds]; split <;> omega)
      refine ⟨after, kept.trans rest, ?_⟩
      rcases ends with ⟨more, run, filled⟩ | ⟨short, run⟩
      · exact Or.inl ⟨fits, by omega, run, by omega⟩
      · exact Or.inr (Or.inl ⟨fits, by omega, run⟩)
    · rw [if_pos (by omega)]
      exact ⟨rs.discard, kept, Or.inr (Or.inr ⟨by omega, rfl⟩)⟩

/-- The call returns this, and these bytes are left. -/
def Reads {α : Type} (action : ReadM α) (rs : ReadStream) (parsed : Except Failure α × List UInt8) : Prop :=
  ∃ after : ReadStream, after.Valid ∧ after.readBufSize = rs.readBufSize ∧ after.input = parsed.2 ∧
    action rs = match parsed.1 with
      | .ok value => .ok value after
      | .error failure => .error failure after

theorem Reads.map {α β : Type} {action : ReadM α} {rs : ReadStream} {parsed : Except Failure α × List UInt8}
    (reads : Reads action rs parsed) (f : α → β) : Reads (f <$> action) rs (parsed.1.map f, parsed.2) := by
  obtain ⟨after, valid, size, left, run⟩ := reads
  refine ⟨after, valid, size, left, ?_⟩
  rw [EStateM.map_apply, run]
  obtain ⟨result, rest⟩ := parsed
  cases result <;> rfl

/-- A call may refuse what it has read. -/
theorem Reads.bind {α β : Type} {action : ReadM α} {rs : ReadStream} {parsed : Except Failure α × List UInt8}
    (reads : Reads action rs parsed) (check : α → Except Failure β) {next : α → ReadM β}
    (checks : ∀ value state, next value state = match check value with
      | .ok value => .ok value state
      | .error failure => .error failure state) :
    Reads (action >>= next) rs (parsed.1.bind check, parsed.2) := by
  obtain ⟨after, valid, size, left, run⟩ := reads
  refine ⟨after, valid, size, left, ?_⟩
  obtain ⟨result, rest⟩ := parsed
  cases result with
  | ok value =>
      rw [EStateM.bind_ok run, checks]
      rfl
  | error failure => rw [EStateM.bind_error run]; rfl

/-- The position moves over bytes that are in the buffer. -/
theorem takeUnread_run {rs : ReadStream} (valid : rs.Valid) {n : Nat} (enough : rs.readI + n ≤ rs.readN) :
    takeUnread n rs = .ok (rs.input.take n) { rs with readI := rs.readI + n } ∧
      ReadStream.Valid { rs with readI := rs.readI + n } ∧
      ReadStream.input { rs with readI := rs.readI + n } = rs.input.drop n := by
  have length := valid.unread_length
  have short : n ≤ rs.unread.length := by omega
  have bytes : readAt rs.readBuf rs.readI n = rs.input.take n := by
    rw [input, List.take_append_of_le_length short, unread, readAt, readAt, List.take_take, Nat.min_eq_left (by omega)]
  have left : ReadStream.unread { rs with readI := rs.readI + n } = rs.unread.drop n := by
    rw [unread, unread, readAt, readAt, List.drop_take, List.drop_drop, Nat.sub_sub]
  refine ⟨?_, ⟨valid.size, enough, valid.inside⟩, ?_⟩
  · unfold takeUnread
    rw [EStateM.bind_ok (EStateM.get_apply rs), EStateM.bind_ok (EStateM.set_apply _ _), require_bind enough, bytes]
    rfl
  · rw [input, left, input, List.drop_append_of_le_length short]

/-- Bytes of a known length are read as they stand in the stream. -/
theorem structuredStreamReadBytes_reads {rs : ReadStream} (valid : rs.Valid) {n : Nat} (fits : n ≤ rs.readBufSize) :
    Reads (structuredStreamReadBytes n) rs (parseBytes n .structuredStreamEof rs.input) := by
  obtain ⟨middle, kept, ends⟩ := structuredStreamEnsureRead_ends valid n
  unfold structuredStreamReadBytes parseBytes
  rcases ends with ⟨_, more, run, enough⟩ | ⟨_, short, run⟩ | ⟨small, _⟩
  · obtain ⟨taken, validAfter, left⟩ := takeUnread_run kept.valid enough
    rw [if_pos more]
    refine ⟨_, validAfter, kept.size, ?_, ?_⟩
    · rw [left, kept.input]
    · rw [EStateM.bind_ok run, taken, kept.input]
  · rw [if_neg (by omega)]
    exact ⟨middle, kept.valid, kept.size, kept.input, EStateM.bind_error run _⟩
  · omega

theorem structuredStreamReadBytesInplace_reads {rs : ReadStream} (valid : rs.Valid) {n : Nat}
    (fits : n ≤ rs.readBufSize) :
    Reads (structuredStreamReadBytesInplace n) rs (parseBytes n .structuredStreamBufUnderrun rs.input) := by
  obtain ⟨middle, kept, ends⟩ := structuredStreamEnsureRead_ends valid n
  unfold structuredStreamReadBytesInplace parseBytes
  rcases ends with ⟨_, more, run, enough⟩ | ⟨_, short, run⟩ | ⟨small, _⟩
  · obtain ⟨taken, validAfter, left⟩ := takeUnread_run kept.valid enough
    have there : underrun (structuredStreamEnsureRead n) rs = .ok () middle := by rw [underrun, run]
    rw [if_pos more]
    refine ⟨_, validAfter, kept.size, ?_, ?_⟩
    · rw [left, kept.input]
    · rw [EStateM.bind_ok there, taken, kept.input]
  · have gone : underrun (structuredStreamEnsureRead n) rs = .error (.code .structuredStreamBufUnderrun) middle := by
      rw [underrun, run]
    rw [if_neg (by omega)]
    exact ⟨middle, kept.valid, kept.size, kept.input, EStateM.bind_error gone _⟩
  · omega

/-- Bytes behind their length are read as they stand in the stream. -/
theorem structuredStreamReadUint16PrefixedBytesInplace_reads {rs : ReadStream} (valid : rs.Valid)
    (fits : (if rs.input.length < 2 then 2 else valueOf (rs.input.take 2) + 2) ≤ rs.readBufSize) :
    Reads structuredStreamReadUint16PrefixedBytesInplace rs (parsePrefixed rs.input) := by
  have two : 2 ≤ rs.readBufSize := by
    split at fits <;> omega
  obtain ⟨peeked, kept, ends⟩ := structuredStreamEnsureRead_ends valid 2
  unfold structuredStreamReadUint16PrefixedBytesInplace structuredStreamReadBytes parsePrefixed
  rcases ends with ⟨_, more, run, enough⟩ | ⟨_, short, run⟩ | ⟨small, _⟩
  · obtain ⟨taken, _, _⟩ := takeUnread_run kept.valid enough
    rw [if_neg (by omega)] at fits ⊢
    rw [kept.input] at taken
    have size := kept.size
    have back : ({ peeked with readI := peeked.readI + 2 - 2 } : ReadStream) = peeked := by
      rw [Nat.add_sub_cancel]
    obtain ⟨filled, keeps, ends⟩ := structuredStreamEnsureRead_ends kept.valid (valueOf (rs.input.take 2) + 2)
    have both := kept.trans keeps
    rcases ends with ⟨_, all, again, room⟩ | ⟨_, short, again⟩ | ⟨small, _⟩
    · have there : underrun (structuredStreamEnsureRead (valueOf (rs.input.take 2) + 2)) peeked = .ok () filled := by
        rw [underrun, again]
      obtain ⟨_, validSkipped, skipped⟩ := @takeUnread_run filled keeps.valid 2 (by omega)
      obtain ⟨value, validAfter, left⟩ := @takeUnread_run { filled with readI := filled.readI + 2 } validSkipped
        (valueOf (rs.input.take 2)) (show filled.readI + 2 + valueOf (rs.input.take 2) ≤ filled.readN by omega)
      rw [skipped, both.input] at value left
      dsimp only
      rw [kept.input] at all
      rw [if_pos all]
      refine ⟨_, validAfter, both.size, ?_, ?_⟩
      · rw [left, List.drop_drop, Nat.add_comm 2]
      · rw [EStateM.bind_ok ((EStateM.bind_ok run _).trans taken), EStateM.bind_ok (EStateM.modify_apply _ _)]
        dsimp only
        rw [back, EStateM.bind_ok there, EStateM.bind_ok (EStateM.modify_apply _ _)]
        exact value
    · have gone : underrun (structuredStreamEnsureRead (valueOf (rs.input.take 2) + 2)) peeked =
          .error (.code .structuredStreamBufUnderrun) filled := by
        rw [underrun, again]
      dsimp only
      rw [kept.input] at short
      rw [if_neg (by omega)]
      refine ⟨filled, both.valid, both.size, both.input, ?_⟩
      rw [EStateM.bind_ok ((EStateM.bind_ok run _).trans taken), EStateM.bind_ok (EStateM.modify_apply _ _)]
      dsimp only
      rw [back]
      exact EStateM.bind_error gone _
    · omega
  · rw [if_pos short]
    exact ⟨peeked, kept.valid, kept.size, kept.input, EStateM.bind_error (EStateM.bind_error run _) _⟩
  · omega

theorem structuredStreamReadUint16PrefixedBytes_reads {rs : ReadStream} (valid : rs.Valid) (bufSize : Nat)
    (fits : (if rs.input.length < 2 then 2 else valueOf (rs.input.take 2) + 2) ≤ rs.readBufSize) :
    Reads (structuredStreamReadUint16PrefixedBytes bufSize) rs
      ((parsePrefixed rs.input).1.bind fun data =>
        if bufSize < data.length then .error (.code .structuredStreamBufTooSmall) else .ok data,
        (parsePrefixed rs.input).2) := by
  refine (structuredStreamReadUint16PrefixedBytesInplace_reads valid fits).bind _ fun data state => ?_
  by_cases long : bufSize < data.length
  · rw [if_pos long, if_pos long]
    rfl
  · rw [if_neg long, if_neg long]
    rfl

theorem structuredStreamReadUint16PrefixedString_reads {rs : ReadStream} (valid : rs.Valid) (bufSize : Nat)
    (fits : (if rs.input.length < 2 then 2 else valueOf (rs.input.take 2) + 2) ≤ rs.readBufSize) :
    Reads (structuredStreamReadUint16PrefixedString bufSize) rs
      ((parsePrefixed rs.input).1.bind fun data =>
        if data.length < bufSize then .ok (data ++ [0]) else .error (.code .structuredStreamBufTooSmall),
        (parsePrefixed rs.input).2) := by
  refine (structuredStreamReadUint16PrefixedBytesInplace_reads valid fits).bind _ fun data state => ?_
  by_cases short : data.length < bufSize
  · rw [if_neg (by omega), if_pos short]
    rfl
  · rw [if_pos (by omega), if_neg short]
    rfl

end ReadStream

open ReadStream

/-- Each call returns what it reads from the bytes themselves. -/
theorem ReadCall.run_reads (call : ReadCall) {rs : ReadStream} (valid : rs.Valid)
    (fits : call.need rs.input ≤ rs.readBufSize) : Reads call.run rs (call.parse rs.input) := by
  cases call with
  | number kind =>
      exact (structuredStreamReadBytes_reads valid fits).map fun data => ReadValue.number (kind.decode data)
  | bytes n => exact (structuredStreamReadBytes_reads valid fits).map ReadValue.bytes
  | prefixedBytes bufSize =>
      exact (structuredStreamReadUint16PrefixedBytes_reads valid bufSize fits).map ReadValue.bytes
  | prefixedString bufSize =>
      exact (structuredStreamReadUint16PrefixedString_reads valid bufSize fits).map ReadValue.bytes
  | prefixedInplace => exact (structuredStreamReadUint16PrefixedBytesInplace_reads valid fits).map ReadValue.bytes
  | bytesInplace n => exact (structuredStreamReadBytesInplace_reads valid fits).map ReadValue.bytes

/-- A run of calls returns what they read from the bytes themselves. -/
theorem runReadCalls_eq {calls : List ReadCall} {rs : ReadStream} (valid : rs.Valid)
    (fits : CallsFit rs.readBufSize calls rs.input) :
    (runReadCalls calls rs).1 = parseCalls calls rs.input ∧ (runReadCalls calls rs).2.Valid ∧
      (runReadCalls calls rs).2.readBufSize = rs.readBufSize := by
  induction calls generalizing rs with
  | nil => exact ⟨rfl, valid, rfl⟩
  | cons call calls ih =>
      obtain ⟨fit, others⟩ := fits
      obtain ⟨after, validAfter, size, left, run⟩ := call.run_reads valid fit
      rw [← size, ← left] at others
      obtain ⟨results, validLast, sizeLast⟩ := ih validAfter others
      rw [runReadCalls, run, parseCalls]
      cases (call.parse rs.input).1 with
      | ok value => exact ⟨by rw [← left, ← results], validLast, sizeLast.trans size⟩
      | error failure => exact ⟨by rw [← left, ← results], validLast, sizeLast.trans size⟩

/-- The calls return the same for every way in which the bytes arrive, and the positions stay inside the buffer. -/
theorem runReadCalls_chunking (readBufSize : Nat) (bytes : List UInt8) (calls : List ReadCall)
    (fits : CallsFit readBufSize calls bytes) (first second : List ReadEvent) :
    let one := runReadCalls calls (ReadStream.structuredStreamNew readBufSize bytes first)
    let two := runReadCalls calls (ReadStream.structuredStreamNew readBufSize bytes second)
    one.1 = two.1 ∧ one.1 = parseCalls calls bytes ∧
      (one.2.readI ≤ one.2.readN ∧ one.2.readN ≤ readBufSize) ∧
      two.2.readI ≤ two.2.readN ∧ two.2.readN ≤ readBufSize := by
  have fresh : ∀ events, (ReadStream.structuredStreamNew readBufSize bytes events).Valid := fun events =>
    ⟨List.length_replicate, le_rfl, Nat.zero_le _⟩
  have input : ∀ events, (ReadStream.structuredStreamNew readBufSize bytes events).input = bytes := fun events => rfl
  obtain ⟨oneResults, oneValid, oneSize⟩ := runReadCalls_eq (fresh first) (by rw [input]; exact fits)
  obtain ⟨twoResults, twoValid, twoSize⟩ := runReadCalls_eq (fresh second) (by rw [input]; exact fits)
  rw [input] at oneResults twoResults
  refine ⟨oneResults.trans twoResults.symm, oneResults, ⟨oneValid.order, ?_⟩, twoValid.order, ?_⟩
  · exact oneValid.inside.trans_eq oneSize
  · exact twoValid.inside.trans_eq twoSize

/-- Six bytes that arrive one by one with `EAGAIN` in between, or all at once. -/
theorem runReadCalls_chunking_six :
    (runReadCalls [.prefixedInplace, .number .uint8]
        (ReadStream.structuredStreamNew 5 [3, 0, 7, 8, 9, 1] [.again, .arrived 0, .again, .arrived 0])).1 =
      [.ok (.bytes [7, 8, 9]), .ok (.number 1)] := by
  have same := runReadCalls_chunking 5 [3, 0, 7, 8, 9, 1] [.prefixedInplace, .number .uint8]
    ⟨by decide, by decide, trivial⟩ [.again, .arrived 0, .again, .arrived 0] []
  exact same.2.1

section Streams

variable {ss : Stream}

/-- The loop of the model stops where the bytes end. -/
theorem ensureReadLoop_eof (rounds : Nat) : ∀ {ss : Stream} {needed maxSpace : Nat}, ss.incoming.length < rounds →
    ss.incoming.length < needed → needed ≤ maxSpace → ss.unread.length + maxSpace ≤ ss.readBufSize →
    ss.written.length ≤ ss.writeBufSize →
    ∃ after, Menoetius.ensureReadLoop rounds needed maxSpace ss = .error (.code .structuredStreamEof) after ∧
      ss.Moved after [] [] := by
  induction rounds with
  | zero =>
      intro ss needed maxSpace fuel
      omega
  | succ rounds ih =>
      intro ss needed maxSpace fuel short space fits written
      unfold Menoetius.ensureReadLoop
      rw [require_bind (show 0 < maxSpace by omega)]
      by_cases none : ss.incoming.length = 0
      · have empty : ss.incoming = [] := List.eq_nil_of_length_eq_zero none
        have read : Menoetius.socketRead maxSpace ss = .ok 0 { ss with reads := ss.reads + 1 } := by
          have zero : min (min maxSpace ss.incoming.length) (max 1 (ss.arrived ss.reads)) = 0 := by omega
          unfold Menoetius.socketRead
          rw [EStateM.bind_ok (EStateM.get_apply ss), zero, List.take_zero, List.drop_zero, List.append_nil]
          rfl
        refine ⟨{ ss with reads := ss.reads + 1 }, ?_, ⟨rfl, (List.append_nil _).symm, rfl, rfl, ⟨?_, written⟩⟩⟩
        · rw [EStateM.bind_ok read, if_pos rfl]
          rfl
        · change ss.unread.length ≤ ss.readBufSize
          omega
      · obtain ⟨m, middle, read, more, bound, grown, moved⟩ := socketRead_run (show 0 < maxSpace by omega)
          (show 0 < ss.incoming.length by omega) fits written
        have left : ss.incoming.length = m + middle.incoming.length := by
          have lengths := congrArg List.length moved.input
          rw [Stream.input, Stream.input, List.nil_append, List.length_append, List.length_append] at lengths
          omega
        obtain ⟨after, run, rest⟩ := @ih middle (needed - m) (maxSpace - m) (by omega) (by omega) (by omega)
          (by rw [moved.readBufSize]; omega) moved.valid.written
        rw [EStateM.bind_ok read, if_neg (by omega), if_pos (by omega)]
        exact ⟨after, run, moved.trans rest⟩

/-- The call of the model ends like the one with the buffer. -/
theorem structuredStreamEnsureRead_eof {n : Nat} (valid : ss.Valid) (fits : n ≤ ss.readBufSize)
    (short : ss.input.length < n) :
    ∃ after, Menoetius.structuredStreamEnsureRead n ss = .error (.code .structuredStreamEof) after ∧
      ss.Moved after [] [] := by
  unfold Menoetius.structuredStreamEnsureRead
  rw [EStateM.bind_ok (EStateM.get_apply ss)]
  rw [Stream.input, List.length_append] at short
  dsimp only
  rw [if_neg (by omega), if_neg (by omega)]
  exact ensureReadLoop_eof _ (by omega) (by omega) (by omega) (by omega) valid.written

/-- The call of the model returns this, and these bytes are left. -/
def Stream.Reads {α : Type} (action : StreamM α) (ss : Stream) (parsed : Except Failure α × List UInt8) : Prop :=
  ∃ after : Stream, after.Valid ∧ after.readBufSize = ss.readBufSize ∧ after.input = parsed.2 ∧
    action ss = match parsed.1 with
      | .ok value => .ok value after
      | .error failure => .error failure after

/-- The bytes that are in the buffer are the first ones of the input. -/
theorem stream_takeUnread {n : Nat} (valid : ss.Valid) (enough : n ≤ ss.unread.length) :
    ∃ after, Menoetius.takeUnread n ss = .ok (ss.input.take n) after ∧ after.Valid ∧
      after.readBufSize = ss.readBufSize ∧ after.input = ss.input.drop n ∧
      after.unread.length = ss.unread.length - n := by
  have length : (ss.input.take n).length = n := by
    rw [List.length_take, Stream.input, List.length_append]
    omega
  have split : ss.input = ss.input.take n ++ ss.input.drop n := (List.take_append_drop n ss.input).symm
  obtain ⟨after, run, moved, left⟩ := Menoetius.takeUnread_run valid split (by rw [length]; exact enough)
  rw [length] at run left
  refine ⟨after, run, moved.valid, moved.readBufSize, ?_, left⟩
  have input := moved.input
  nth_rewrite 1 [split] at input
  exact (List.append_cancel_left input).symm

theorem stream_readBytes_reads (valid : ss.Valid) {n : Nat} (fits : n ≤ ss.readBufSize) :
    Stream.Reads (Menoetius.structuredStreamReadBytes n) ss (parseBytes n .structuredStreamEof ss.input) := by
  unfold Menoetius.structuredStreamReadBytes parseBytes
  by_cases enough : n ≤ ss.input.length
  · obtain ⟨middle, run, there, moved⟩ := structuredStreamEnsureRead_run valid fits enough
    obtain ⟨after, taken, validAfter, size, left, _⟩ := stream_takeUnread moved.valid there
    have input : middle.input = ss.input := moved.input.symm
    rw [input] at taken left
    rw [if_pos enough]
    exact ⟨after, validAfter, size.trans moved.readBufSize, left, (EStateM.bind_ok run _).trans taken⟩
  · obtain ⟨after, run, moved⟩ := structuredStreamEnsureRead_eof valid fits (by omega)
    rw [if_neg enough]
    exact ⟨after, moved.valid, moved.readBufSize, moved.input.symm, EStateM.bind_error run _⟩

theorem stream_readBytesInplace_reads (valid : ss.Valid) {n : Nat} (fits : n ≤ ss.readBufSize) :
    Stream.Reads (Menoetius.structuredStreamReadBytesInplace n) ss
      (parseBytes n .structuredStreamBufUnderrun ss.input) := by
  unfold Menoetius.structuredStreamReadBytesInplace parseBytes
  by_cases enough : n ≤ ss.input.length
  · obtain ⟨middle, run, there, moved⟩ := structuredStreamEnsureRead_run valid fits enough
    obtain ⟨after, taken, validAfter, size, left, _⟩ := stream_takeUnread moved.valid there
    have input : middle.input = ss.input := moved.input.symm
    have passed : Menoetius.underrun (Menoetius.structuredStreamEnsureRead n) ss = .ok () middle := by
      rw [Menoetius.underrun, run]
    rw [input] at taken left
    rw [if_pos enough]
    exact ⟨after, validAfter, size.trans moved.readBufSize, left, (EStateM.bind_ok passed _).trans taken⟩
  · obtain ⟨after, run, moved⟩ := structuredStreamEnsureRead_eof valid fits (by omega)
    have failed : Menoetius.underrun (Menoetius.structuredStreamEnsureRead n) ss =
        .error (.code .structuredStreamBufUnderrun) after := by
      rw [Menoetius.underrun, run]
    rw [if_neg enough]
    exact ⟨after, moved.valid, moved.readBufSize, moved.input.symm, EStateM.bind_error failed _⟩

theorem stream_prefixedInplace_reads (valid : ss.Valid)
    (fits : (if ss.input.length < 2 then 2 else valueOf (ss.input.take 2) + 2) ≤ ss.readBufSize) :
    Stream.Reads Menoetius.structuredStreamReadUint16PrefixedBytesInplace ss (parsePrefixed ss.input) := by
  have two : 2 ≤ ss.readBufSize := by
    split at fits <;> omega
  unfold Menoetius.structuredStreamReadUint16PrefixedBytesInplace parsePrefixed
  by_cases few : ss.input.length < 2
  · obtain ⟨after, run, moved⟩ := structuredStreamEnsureRead_eof valid two few
    rw [if_pos few]
    exact ⟨after, moved.valid, moved.readBufSize, moved.input.symm, EStateM.bind_error run _⟩
  · rw [if_neg few] at fits ⊢
    obtain ⟨peeked, run, there, moved⟩ := structuredStreamEnsureRead_run valid two (by omega)
    have input : peeked.input = ss.input := moved.input.symm
    have first : peeked.unread.take 2 = ss.input.take 2 := by
      rw [← input, Stream.input, List.take_append_of_le_length there]
    have size := moved.readBufSize
    dsimp only
    by_cases enough : valueOf (ss.input.take 2) + 2 ≤ ss.input.length
    · obtain ⟨filled, again, all, more⟩ := @structuredStreamEnsureRead_run peeked (valueOf (ss.input.take 2) + 2)
        moved.valid (by omega) (by rw [input]; exact enough)
      have same : filled.input = ss.input := more.input.symm.trans input
      have passed : Menoetius.underrun (Menoetius.structuredStreamEnsureRead (valueOf (ss.input.take 2) + 2)) peeked =
          .ok () filled := by
        rw [Menoetius.underrun, again]
      obtain ⟨skipped, skip, validSkipped, sizeSkipped, restSkipped, unreadSkipped⟩ :=
        @stream_takeUnread filled 2 more.valid (by omega)
      obtain ⟨after, taken, validAfter, sizeAfter, left, _⟩ :=
        @stream_takeUnread skipped (valueOf (ss.input.take 2)) validSkipped (by omega)
      rw [restSkipped, same] at taken left
      rw [if_pos enough]
      refine ⟨after, validAfter, ?_, ?_, ?_⟩
      · rw [sizeAfter, sizeSkipped, more.readBufSize, size]
      · rw [left, List.drop_drop, Nat.add_comm 2]
      · rw [EStateM.bind_ok run, EStateM.bind_ok (EStateM.get_apply peeked), first, EStateM.bind_ok passed,
          EStateM.bind_ok skip]
        exact taken
    · obtain ⟨after, again, more⟩ := @structuredStreamEnsureRead_eof peeked (valueOf (ss.input.take 2) + 2)
        moved.valid (by omega) (by rw [input]; omega)
      have failed : Menoetius.underrun (Menoetius.structuredStreamEnsureRead (valueOf (ss.input.take 2) + 2)) peeked =
          .error (.code .structuredStreamBufUnderrun) after := by
        rw [Menoetius.underrun, again]
      rw [if_neg enough]
      refine ⟨after, more.valid, more.readBufSize.trans size, more.input.symm.trans input, ?_⟩
      rw [EStateM.bind_ok run, EStateM.bind_ok (EStateM.get_apply peeked), first]
      exact EStateM.bind_error failed _

/-- The stream of the model and the buffer return the same, and the same bytes are left to both. -/
theorem streams_agree {rs : ReadStream} (validRead : rs.Valid) (valid : ss.Valid)
    (size : rs.readBufSize = ss.readBufSize) (input : rs.input = ss.input) :
    (∀ n, n ≤ ss.readBufSize →
      ∃ parsed, ReadStream.Reads (ReadStream.structuredStreamReadBytes n) rs parsed ∧
        Stream.Reads (Menoetius.structuredStreamReadBytes n) ss parsed) ∧
    (∀ n, n ≤ ss.readBufSize →
      ∃ parsed, ReadStream.Reads (ReadStream.structuredStreamReadBytesInplace n) rs parsed ∧
        Stream.Reads (Menoetius.structuredStreamReadBytesInplace n) ss parsed) ∧
    ((if ss.input.length < 2 then 2 else valueOf (ss.input.take 2) + 2) ≤ ss.readBufSize →
      ∃ parsed, ReadStream.Reads ReadStream.structuredStreamReadUint16PrefixedBytesInplace rs parsed ∧
        Stream.Reads Menoetius.structuredStreamReadUint16PrefixedBytesInplace ss parsed) := by
  refine ⟨fun n fits => ⟨_, structuredStreamReadBytes_reads validRead (size ▸ fits), ?_⟩,
    fun n fits => ⟨_, structuredStreamReadBytesInplace_reads validRead (size ▸ fits), ?_⟩,
    fun fits => ⟨_, structuredStreamReadUint16PrefixedBytesInplace_reads validRead ?_, ?_⟩⟩
  · rw [input]
    exact stream_readBytes_reads valid fits
  · rw [input]
    exact stream_readBytesInplace_reads valid fits
  · rw [input, size]
    exact fits
  · rw [input]
    exact stream_prefixedInplace_reads valid fits

end Streams

end Menoetius
