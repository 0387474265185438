import Menoetius.Session
import Menoetius.StreamRead

/-
This file shows when a query of a client reads its whole response.
-/

namespace Menoetius
open EStateM LittleEndian HasStream

/-- The keys are read back from the bytes of a lookup. -/
theorem readKeys_prefixed {keys : List (List UInt8)} (valid : ∀ key ∈ keys, ValidKey key) {rounds : Nat}
    (enough : (keys.flatMap prefixed).length ≤ rounds) : readKeys rounds (keys.flatMap prefixed) = keys := by
  induction keys generalizing rounds with
  | nil =>
      cases rounds with
      | zero => rfl
      | succ rounds =>
          rw [List.flatMap_nil, readKeys]
          exact if_pos rfl
  | cons key rest ih =>
      obtain ⟨⟨nonempty, short⟩, others⟩ := List.forall_mem_cons.mp valid
      have small : key.length < 256 ^ 2 := short.trans_lt (by decide)
      have first : (bytesOf 2 key.length).length = 2 := bytesOf_length _ _
      rw [List.flatMap_cons, List.length_append, prefixed_length] at enough
      obtain ⟨rounds, rfl⟩ : ∃ less, rounds = less + 1 := ⟨rounds - 1, by omega⟩
      rw [List.flatMap_cons, prefixed, List.append_assoc, readKeys, List.take_left' first,
        valueOf_bytesOf_of_lt 2 _ small, if_neg (by omega), ← List.drop_drop, List.drop_left' first, List.take_left,
        List.drop_left, ih others (by omega)]

theorem resultKeys_prefixed {keys : List (List UInt8)} (valid : ∀ key ∈ keys, ValidKey key) :
    resultKeys (keys.flatMap prefixed) = keys := readKeys_prefixed valid le_rfl

section
variable {ss : Stream} {bytes : List UInt8}

/-- The next bytes with their length are read, and nothing is written. -/
theorem readPrefixed_run {rest : List UInt8} (valid : ss.Valid) (read : connBufSize ≤ ss.readBufSize)
    (short : bytes.length ≤ clientBufSize) (part : prefixed bytes ++ rest <+: ss.input) :
    ∃ after, structuredStreamReadUint16PrefixedBytesInplace ss = .ok bytes after ∧ after.Valid ∧
      connBufSize ≤ after.readBufSize ∧ rest <+: after.input ∧ after.output = ss.output := by
  obtain ⟨after, run, moved⟩ := @exchanges_readPrefixed connBufSize 0 bytes (short.trans_lt (by decide))
    ((Nat.add_le_add_right short 2).trans (by decide)) ss valid read (Nat.zero_le _) ((List.prefix_append _ _).trans part)
  have moved : ss.Moved after (prefixed bytes) [] := moved
  rw [moved.input] at part
  exact ⟨after, run, moved.valid, moved.readBufSize ▸ read, (List.prefix_append_right_inj _).mp part,
    moved.output.trans (List.append_nil _)⟩

theorem append_refused {matchers : Matchers} (large : maxLabelMatches ≤ matchers.labelMatches.length + bytes.length + 1) :
    matchers.append bytes = .error (.code (.res 1)) := if_pos large

/-- Labels that do not fit the buffer of the handler are refused. -/
theorem handleConnQueryLabels_large (indices : List (List UInt8)) (requested : List (List UInt8 × List UInt8)) :
    ∀ {matchers : Matchers} {ss : Stream}, matchers.labelMatches.length < maxLabelMatches →
      maxLabelMatches ≤ (matchers.labelMatches ++ labelBytes requested).length →
      (∀ matcher ∈ requested, matcher.1.length ≤ clientBufSize ∧ matcher.2.length ≤ clientBufSize) →
      ss.Valid → connBufSize ≤ ss.readBufSize → matcherBytes requested <+: ss.input →
      ∃ after, handleConnQueryLabels indices requested.length matchers ss = .error (.code (.res 1)) after ∧
        after.output = ss.output := by
  induction requested with
  | nil =>
      intro matchers ss small large
      rw [labelBytes, List.flatMap_nil, List.append_nil] at large
      exact absurd small (Nat.not_lt.mpr large)
  | cons matcher rest ih =>
      intro matchers ss small large short valid read part
      obtain ⟨⟨label, value⟩, others⟩ := List.forall_mem_cons.mp short
      have split : matcherBytes (matcher :: rest) = prefixed matcher.1 ++ (prefixed matcher.2 ++ matcherBytes rest) := by
        rw [matcherBytes, List.flatMap_cons, List.append_assoc]
        rfl
      have step : handleConnQueryLabels indices (matcher :: rest).length matchers = (do
          let label ← structuredStreamReadUint16PrefixedBytesInplace
          let labelled ← ofExcept (matchers.addLabel indices label)
          let value ← structuredStreamReadUint16PrefixedBytesInplace
          let added ← ofExcept (labelled.addValue value)
          handleConnQueryLabels indices rest.length added) := rfl
      rw [split] at part
      obtain ⟨first, readLabel, valid, read, part, output⟩ := readPrefixed_run valid read label part
      rw [step, bind_ok readLabel]
      by_cases fits : matchers.labelMatches.length + matcher.1.length + 1 < maxLabelMatches
      · let labelled : Matchers :=
          { matchers.select indices matcher.1 with labelMatches := matchers.labelMatches ++ (matcher.1 ++ [0]) }
        have length : labelled.labelMatches.length = matchers.labelMatches.length + matcher.1.length + 1 := by
          rw [List.length_append, List.length_append, List.length_singleton, Nat.add_assoc]
        have added : (ofExcept (matchers.addLabel indices matcher.1) : StreamM Matchers) first = .ok labelled first := by
          rw [addLabel_run fits]
          rfl
        obtain ⟨second, readValue, valid, read, part, output'⟩ := readPrefixed_run valid read value part
        rw [bind_ok added, bind_ok readValue]
        by_cases more : labelled.labelMatches.length + matcher.2.length + 1 < maxLabelMatches
        · have added : (ofExcept (labelled.addValue matcher.2) : StreamM Matchers) second =
              .ok (matchers.added indices matcher) second := by
            rw [addValue_run more]
            rfl
          have shorter : (matchers.added indices matcher).labelMatches.length < maxLabelMatches := by
            change (labelled.labelMatches ++ (matcher.2 ++ [0])).length < maxLabelMatches
            rw [List.length_append, @List.length_append _ matcher.2, List.length_singleton, ← Nat.add_assoc]
            exact more
          have same : (matchers.added indices matcher).labelMatches ++ labelBytes rest =
              matchers.labelMatches ++ labelBytes (matcher :: rest) := by
            change ((matchers.labelMatches ++ (matcher.1 ++ [0])) ++ (matcher.2 ++ [0])) ++ labelBytes rest = _
            rw [labelBytes_cons]
            simp only [List.append_assoc]
          rw [bind_ok added]
          obtain ⟨after, run, last⟩ := ih shorter (same ▸ large) others valid read part
          exact ⟨after, run, last.trans (output'.trans output)⟩
        · have refused : labelled.addValue matcher.2 = .error (.code (.res 1)) := append_refused (by
            change maxLabelMatches ≤ labelled.labelMatches.length + matcher.2.length + 1
            omega)
          rw [refused]
          exact ⟨second, rfl, output'.trans output⟩
      · have refused : matchers.addLabel indices matcher.1 = .error (.code (.res 1)) :=
          append_refused (by rw [select_labelMatches]; omega)
        rw [refused]
        exact ⟨first, rfl, output⟩

end

/-- The labels and values as the client sends them. -/
def sentMatchers (matchers : List (List UInt8 × List UInt8)) : List (List UInt8 × List UInt8) :=
  matchers.map fun matcher => (prefixedText matcher.1, prefixedText matcher.2)

/-- The labels and values fit the buffer of the client. -/
def MatchersFit (matchers : List (List UInt8 × List UInt8)) : Prop :=
  ∀ matcher ∈ sentMatchers matchers, matcher.1.length ≤ clientBufSize ∧ matcher.2.length ≤ clientBufSize

/-- The request of `menoetius_client_query`. -/
def clientRequest (matchers : List (List UInt8 × List UInt8)) (allowFullScan : Bool) : QueryRequest where
  flags := if allowFullScan then 1 else 0
  matchers := sentMatchers matchers
  offset := 0
  limit := 1000

/-- The keys that the server sends, which are none after a failure. -/
def sentKeys {σ : Type} (calls : StorageCalls σ) (data : Conn σ) (request : QueryRequest) : List (List UInt8) :=
  if maxLabelMatches ≤ (labelBytes request.matchers).length then []
  else match handleConnQueryLookup calls (request.query calls.indices) data.storage with
    | .ok (none, results, _) _ => if results.length ≤ data.ss.writeBufSize then resultKeys results else []
    | _ => []

section
variable {σ : Type} {calls : StorageCalls σ} {invariant : σ → Prop}

/-- A lookup that returns no code returns keys. -/
theorem handleConnQueryLookup_keys (hosts : Hosts calls invariant) {query : Query} {storage after : σ}
    {results : List UInt8} {last : Nat} (holds : invariant storage)
    (run : handleConnQueryLookup calls query storage = .ok (none, results, last) after) : ReturnsKeys results := by
  rw [handleConnQueryLookup] at run
  by_cases forced : query.forceFullScan = true
  · rw [if_pos forced] at run
    exact hosts.scanKeys _ _ _ _ _ _ _ _ _ holds run
  · rw [if_neg forced] at run
    cases chosen : query.matchers.indexNum with
    | none =>
        rw [chosen] at run
        dsimp only at run
        split at run
        · cases run
        · split at run
          · exact hosts.scanKeys _ _ _ _ _ _ _ _ _ holds run
          · cases run
    | some indexNum =>
        rw [chosen] at run
        dsimp only at run
        rw [lookupResult] at run
        split at run
        · rename_i found
          cases run
          exact hosts.lookupKeys _ _ _ _ _ _ _ _ _ _ holds found
        · cases run
        · cases run

end

section
variable {writeSize : Nat}

/-- An answer is written when its results fit the buffer. -/
theorem exchanges_queryAnswer (fullScan : Bool) (status last : Nat) {err : Option Err} {results sent : List UInt8}
    (same : sent = if err = none then results else []) (room : 8 ≤ writeSize) (fits : sent.length ≤ writeSize) :
    Exchanges 0 writeSize (handleConnQueryAnswer fullScan status err results last) []
      (queryResponse fullScan status sent last) () := by
  have ended : Exchanges 0 writeSize (structuredStreamWriteUint8 status >>= fun _ => structuredStreamFlush) []
      (bytesOf 1 status) () := by
    have both : Exchanges 0 writeSize (structuredStreamWriteUint8 status >>= fun _ => structuredStreamFlush) ([] ++ [])
        (bytesOf 1 status ++ []) () := (exchanges_writeUint status (by omega)).bind exchanges_flush
    rwa [List.append_nil] at both
  have behind : Exchanges 0 writeSize (structuredStreamWriteUint16PrefixedString [] >>= fun _ =>
      if fullScan then structuredStreamWriteUint64 last >>= fun _ =>
        structuredStreamWriteUint8 status >>= fun _ => structuredStreamFlush
      else pure () >>= fun _ => structuredStreamWriteUint8 status >>= fun _ => structuredStreamFlush) []
      (prefixed [] ++ ((if fullScan then bytesOf 8 last else []) ++ bytesOf 1 status)) () := by
    refine (exchanges_writePrefixed (by decide) (Nat.zero_le _) (by omega)).bind ?_
    cases fullScan with
    | true => exact (exchanges_writeUint last room).bind ended
    | false => exact (exchanges_pure ()).bind ended
  unfold handleConnQueryAnswer queryResponse
  by_cases good : err = none
  · rw [if_pos good] at same ⊢
    subst same
    exact (exchanges_writeBytes fits).bind behind
  · rw [if_neg good] at same ⊢
    subst same
    exact behind

end

/-- An answer that is written is sent. -/
theorem handleConnQueryAnswer_flushes {fullScan : Bool} {status last : Nat} {err : Option Err} {results : List UInt8}
    {ss after : Stream} (run : handleConnQueryAnswer fullScan status err results last ss = .ok () after) :
    after.written = [] := by
  have flush : ∀ middle : Stream, structuredStreamFlush.Ends middle (fun _ after => after.written = []) fun _ _ => True :=
    fun middle => ends_of_ok (modify_apply _ middle) rfl
  have anything : ∀ {α : Type} (action : StreamM α) (middle : Stream),
      action.Ends middle (fun _ _ => True) fun _ _ => True := fun action middle => ⟨fun _ => trivial, fun _ => trivial⟩
  have ended : ∀ middle : Stream, (structuredStreamWriteUint8 status >>= fun _ => structuredStreamFlush).Ends middle
      (fun _ after => after.written = []) fun _ _ => True := fun middle =>
    (anything _ middle).bind fun _ next _ => flush next
  have behind : ∀ middle : Stream, (structuredStreamWriteUint16PrefixedString [] >>= fun _ =>
      if fullScan then structuredStreamWriteUint64 last >>= fun _ =>
        structuredStreamWriteUint8 status >>= fun _ => structuredStreamFlush
      else pure () >>= fun _ => structuredStreamWriteUint8 status >>= fun _ => structuredStreamFlush).Ends middle
      (fun _ after => after.written = []) fun _ _ => True := by
    refine fun middle => (anything _ middle).bind fun _ next _ => ?_
    split
    · exact (anything _ next).bind fun _ last _ => ended last
    · exact (anything _ next).bind fun _ last _ => ended last
  have ends : (handleConnQueryAnswer fullScan status err results last).Ends ss (fun _ after => after.written = [])
      fun _ _ => True := by
    unfold handleConnQueryAnswer
    by_cases good : err = none
    · rw [if_pos good]
      exact (anything _ ss).bind fun _ next _ => behind next
    · rw [if_neg good]
      exact behind ss
  exact ends.of_ok run

section
variable {σ : Type} {calls : StorageCalls σ} {invariant : σ → Prop} {data : Conn σ} {request : QueryRequest}

/-- A query as a client sends it. -/
structure QueryRequest.Sendable (request : QueryRequest) : Prop where
  flags : request.flags < 256
  few : request.matchers.length < 256
  short : ∀ matcher ∈ request.matchers, matcher.1.length ≤ clientBufSize ∧ matcher.2.length ≤ clientBufSize
  offset : request.offset < 2 ^ 64
  limit : request.limit < 2 ^ 64

def QueryRequest.fullScan (request : QueryRequest) : Bool := request.flags.testBit 1 || request.flags.testBit 0

theorem onStorageCall_ok {α : Type} {action : EStateM Failure σ α} {value : α} {storage : σ}
    (run : action data.storage = .ok value storage) : onStorage action data = .ok value { data with storage } := by
  rw [onStorage, run]

theorem onStorageCall_error {α : Type} {action : EStateM Failure σ α} {failure : Failure} {storage : σ}
    (run : action data.storage = .error failure storage) :
    onStorage action data = .error failure { data with storage } := by
  rw [onStorage, run]

/-- The handler refuses matchers that do not fit its buffer. -/
theorem handleConnQueryRead_large (calls : StorageCalls σ) (sendable : request.Sendable)
    (large : maxLabelMatches ≤ (labelBytes request.matchers).length) (serving : data.ss.Serving request.bytes) :
    ∃ after, handleConnQueryRead calls data.ss = .error (.code (.res 1)) after ∧ after.output = [] := by
  have head : Exchanges connBufSize 0 (structuredStreamReadUint8 : StreamM Nat) (bytesOf 1 request.flags) []
      request.flags := exchanges_readUint (by decide) sendable.flags
  have count : Exchanges connBufSize 0 (structuredStreamReadUint8 : StreamM Nat) (bytesOf 1 request.matchers.length) []
      request.matchers.length := exchanges_readUint (by decide) sendable.few
  have input := serving.input
  rw [QueryRequest.bytes] at input
  obtain ⟨first, readFlags, moved⟩ := head data.ss serving.valid serving.read (Nat.zero_le _) ⟨_, input.symm⟩
  have moved : data.ss.Moved first (bytesOf 1 request.flags) [] := moved
  rw [moved.input] at input
  have input := List.append_cancel_left input
  obtain ⟨second, readCount, moved'⟩ := count first moved.valid (moved.readBufSize ▸ serving.read) (Nat.zero_le _)
    ⟨_, input.symm⟩
  have moved' : first.Moved second (bytesOf 1 request.matchers.length) [] := moved'
  rw [moved'.input] at input
  have input := List.append_cancel_left input
  have both := moved.trans moved'
  obtain ⟨after, refused, output⟩ := @handleConnQueryLabels_large calls.indices request.matchers
    ⟨none, none, []⟩ second (by decide) large sendable.short moved'.valid (both.readBufSize ▸ serving.read)
    ⟨_, input.symm⟩
  have readFlags : structuredStreamReadUint8 data.ss = .ok request.flags first := readFlags
  have readCount : structuredStreamReadUint8 first = .ok request.matchers.length second := readCount
  refine ⟨after, ?_, ?_⟩
  · unfold handleConnQueryRead
    rw [bind_ok readFlags, bind_ok readCount, bind_error refused]
  · rw [output, both.output, serving.output]
    rfl

/-- The handler sends its keys with a status, or nothing. -/
theorem handleConnQueryLfms_sent (hosts : Hosts calls invariant) (holds : invariant data.storage)
    (sendable : request.Sendable) (serving : data.ss.Serving request.bytes) :
    (handleConnQueryLfms calls).Ends data
      (fun _ conn => ∃ status last, status < 128 ∧ conn.ss.written = [] ∧
        data.ss.Moved conn.ss request.bytes (queryResponse request.fullScan (statusOf data status)
          ((sentKeys calls data request).flatMap prefixed) last))
      fun failure conn => failure.IsCode → conn.ss.outgoing = [] ∧ sentKeys calls data request = [] := by
  unfold handleConnQueryLfms
  by_cases large : maxLabelMatches ≤ (labelBytes request.matchers).length
  · obtain ⟨after, refused, output⟩ := handleConnQueryRead_large calls sendable large serving
    refine ends_of_error (bind_error (onStream_error refused) _) fun _ => ⟨?_, if_pos large⟩
    exact (List.append_eq_nil_iff.mp output).1
  · have keysOf : sentKeys calls data request = _ := if_neg large
    have wellFormed : request.WellFormed :=
      ⟨sendable.flags, sendable.few, Nat.not_le.mp large, sendable.offset, sendable.limit⟩
    obtain ⟨ss, read, moved⟩ := (@exchanges_queryRead σ calls connBufSize 0 request wellFormed (by decide)) data.ss
      serving.valid serving.read (Nat.zero_le _) ⟨[], by rw [List.append_nil]; exact serving.input.symm⟩
    have moved : data.ss.Moved ss request.bytes [] := moved
    have silent : ss.outgoing = [] := by
      have output := moved.output
      rw [serving.output, List.append_nil] at output
      exact (List.append_eq_nil_iff.mp output).1
    have read : handleConnQueryRead calls data.ss = .ok (request.query calls.indices) ss := read
    refine ends_bind_ok (onStream_ok read) ?_
    cases found : handleConnQueryLookup calls (request.query calls.indices) data.storage with
    | error failure storage =>
        rw [found] at keysOf
        have failed : onStorage (handleConnQueryLookup calls (request.query calls.indices)) (withStream data ss) =
            .error failure { data with ss, storage } := onStorageCall_error found
        exact ends_of_error (bind_error failed _) fun _ => ⟨silent, keysOf⟩
    | ok result storage =>
        obtain ⟨err, results, last⟩ := result
        rw [found] at keysOf
        have looked : onStorage (handleConnQueryLookup calls (request.query calls.indices)) (withStream data ss) =
            .ok (err, results, last) { data with ss, storage } := onStorageCall_ok found
        refine ends_bind_ok looked (ends_bind_ok (get_apply _) ?_)
        have answers : ∀ sent : List UInt8, sent = (if err = none then results else []) →
            sent = (sentKeys calls data request).flatMap prefixed → sent.length ≤ data.ss.writeBufSize →
            (onStream (handleConnQueryAnswer request.fullScan (statusOf data (queryErrorCode err)) err results last) :
              ConnM σ Unit).Ends { data with ss, storage }
              (fun _ conn => ∃ status last, status < 128 ∧ conn.ss.written = [] ∧
                data.ss.Moved conn.ss request.bytes (queryResponse request.fullScan (statusOf data status)
                  ((sentKeys calls data request).flatMap prefixed) last))
              fun failure conn => failure.IsCode → conn.ss.outgoing = [] ∧ sentKeys calls data request = [] := by
          intro sent same keys fits
          have room : 8 ≤ data.ss.writeBufSize := (by decide : 8 ≤ connBufSize).trans serving.write
          obtain ⟨after, run, answered⟩ := exchanges_queryAnswer request.fullScan (statusOf data (queryErrorCode err)) last
            same room fits ss moved.valid (Nat.zero_le _) moved.writeBufSize.ge List.nil_prefix
          have answered : ss.Moved after [] _ := answered
          have run : handleConnQueryAnswer request.fullScan (statusOf data (queryErrorCode err)) err results last ss =
              .ok () after := run
          have done : (onStream (handleConnQueryAnswer request.fullScan (statusOf data (queryErrorCode err)) err results
              last) : ConnM σ Unit) { data with ss, storage } = .ok () { data with ss := after, storage } :=
            onStream_ok run
          refine ends_of_ok done ⟨queryErrorCode err, last, ?_, handleConnQueryAnswer_flushes run, ?_⟩
          · unfold queryErrorCode
            split <;> decide
          · have all := moved.trans answered
            rw [List.append_nil, List.nil_append, keys] at all
            exact all
        cases err with
        | some code => exact answers [] rfl (by rw [keysOf]; rfl) (Nat.zero_le _)
        | none =>
            obtain ⟨keys, rfl, valid⟩ := handleConnQueryLookup_keys hosts holds found
            by_cases fits : (keys.flatMap prefixed).length ≤ data.ss.writeBufSize
            · have sent : sentKeys calls data request = keys := by
                rw [keysOf]
                exact (if_pos fits).trans (resultKeys_prefixed valid)
              exact answers (keys.flatMap prefixed) rfl (by rw [sent]) fits
            · have refused := @handleConnQueryAnswer_fails request.fullScan (statusOf data 0) (keys.flatMap prefixed) last ss
                (by rw [moved.writeBufSize]; exact Nat.not_le.mp fits)
              have failed : (onStream (handleConnQueryAnswer request.fullScan (statusOf data 0) none
                  (keys.flatMap prefixed) last) : ConnM σ Unit) { data with ss, storage } =
                    .error (.code .structuredStreamBufTooSmall) { data with ss, storage } := onStream_error refused
              exact ends_of_error failed fun _ => ⟨silent, keysOf.trans (if_neg fits)⟩

end

section
variable {σ : Type} {server : Server σ} {now : Int} {sys : System σ}

/-- The request of `menoetius_client_query`. -/
def clientQueryRequest (server : Server σ) (now : Int) (matchers : List (List UInt8 × List UInt8))
    (allowFullScan : Bool) : SystemM σ Unit := do
  orShutdown server now (onStream (structuredStreamWriteUint8 rpcQueryLfms))
  orShutdown server now (onStream (structuredStreamWriteUint8 (if allowFullScan then 1 else 0)))
  orShutdown server now (onStream (structuredStreamWriteUint8 matchers.length))
  orShutdown server now (onStream (writeMatchers matchers))
  orShutdown server now (onStream (structuredStreamWriteUint64 0))
  orShutdown server now (onStream (structuredStreamWriteUint64 1000))

/-- The response of `menoetius_client_query`. -/
def clientQueryResponse (server : Server σ) (now : Int) (allowFullScan : Bool) (maxResults : Nat) :
    SystemM σ (Nat × List (List UInt8)) := do
  let sys ← get
  let results ← readResults server now maxResults (sys.client.ss.input.length + 1) []
  let _ ← orShutdown server now (onStream (if allowFullScan then structuredStreamReadUint64 else pure 0))
  let response ← orShutdown server now readResponse
  pure (response, results)

theorem menoetiusClientQuery_eq (matchers : List (List UInt8 × List UInt8)) (allowFullScan : Bool) (maxResults : Nat) :
    menoetiusClientQuery server now matchers allowFullScan maxResults =
      clientCall server now (clientQueryRequest server now matchers allowFullScan)
        (clientQueryResponse server now allowFullScan maxResults) := by
  unfold menoetiusClientQuery clientCall clientQueryRequest clientQueryResponse
  simp only [bind_assoc]

theorem exchanges_writeMatchers {matchers : List (List UInt8 × List UInt8)} (fit : MatchersFit matchers) :
    Exchanges 0 clientBufSize (writeMatchers matchers) [] (matcherBytes (sentMatchers matchers)) () := by
  induction matchers with
  | nil => exact exchanges_pure ()
  | cons matcher rest ih =>
      obtain ⟨⟨label, value⟩, others⟩ := List.forall_mem_cons.mp fit
      have split : matcherBytes (sentMatchers (matcher :: rest)) = prefixed (prefixedText matcher.1) ++
          (prefixed (prefixedText matcher.2) ++ matcherBytes (sentMatchers rest)) := by
        rw [sentMatchers, List.map_cons, matcherBytes, List.flatMap_cons, List.append_assoc]
        rfl
      rw [split]
      exact (exchanges_writeText label (by decide)).bind ((exchanges_writeText value (by decide)).bind (ih others))

/-- Matchers that do not fit the buffer are not written. -/
theorem writeMatchers_large {matchers : List (List UInt8 × List UInt8)} (large : ¬ MatchersFit matchers) :
    ∀ {ss : Stream}, ss.Valid → ss.writeBufSize = clientBufSize →
      ∃ after, writeMatchers matchers ss = .error (.code .structuredStreamBufTooSmall) after := by
  induction matchers with
  | nil => exact absurd (fun _ mem => absurd mem List.not_mem_nil) large
  | cons matcher rest ih =>
      intro ss valid size
      have room : 2 ≤ ss.writeBufSize := by rw [size]; decide
      have step : writeMatchers (matcher :: rest) = (do
          structuredStreamWriteUint16PrefixedString matcher.1
          structuredStreamWriteUint16PrefixedString matcher.2
          writeMatchers rest) := rfl
      rw [step]
      by_cases label : (prefixedText matcher.1).length ≤ clientBufSize
      · obtain ⟨first, wrote, moved⟩ := @exchanges_writeText 0 clientBufSize matcher.1 label (by decide) ss valid
          (Nat.zero_le _) size.ge List.nil_prefix
        have wrote : structuredStreamWriteUint16PrefixedString matcher.1 ss = .ok () first := wrote
        have size' : first.writeBufSize = clientBufSize := moved.writeBufSize.trans size
        rw [bind_ok wrote]
        by_cases value : (prefixedText matcher.2).length ≤ clientBufSize
        · obtain ⟨second, wrote', moved'⟩ := @exchanges_writeText 0 clientBufSize matcher.2 value (by decide) first
            moved.valid (Nat.zero_le _) size'.ge List.nil_prefix
          have wrote' : structuredStreamWriteUint16PrefixedString matcher.2 first = .ok () second := wrote'
          rw [bind_ok wrote']
          refine ih (fun fit => large ?_) moved'.valid (moved'.writeBufSize.trans size')
          exact List.forall_mem_cons.mpr ⟨⟨label, value⟩, fit⟩
        · obtain ⟨after, refused⟩ := writeText_large moved.valid (size' ▸ (by decide)) (by
            rw [size']
            exact Nat.not_le.mp value)
          exact ⟨after, bind_error refused _⟩
      · obtain ⟨after, refused⟩ := writeText_large valid room (by
          rw [size]
          exact Nat.not_le.mp label)
        exact ⟨after, bind_error refused _⟩

end

/-- There are more keys than a client has room for, and it can read the first one that is too many. -/
def Overruns (room : Nat) (keys : List (List UInt8)) : Prop :=
  room < keys.length ∧ ∀ key ∈ keys.take (room + 1), key.length + 2 ≤ clientBufSize

theorem overruns_succ {room : Nat} {key : List UInt8} {rest : List (List UInt8)}
    (fits : key.length + 2 ≤ clientBufSize) : Overruns (room + 1) (key :: rest) ↔ Overruns room rest := by
  rw [Overruns, Overruns, List.length_cons, List.take_succ_cons, List.forall_mem_cons, Nat.add_lt_add_iff_right]
  exact and_congr_right fun _ => and_iff_right fits

section
variable {σ : Type} {server : Server σ} {now : Int} {sys : System σ}

/-- The client reads the keys until the empty one. -/
theorem readResults_ends {tail : List UInt8} {maxResults : Nat} {keys : List (List UInt8)}
    (valid : ∀ key ∈ keys, ValidKey key) :
    ∀ {rounds : Nat} {results : List (List UInt8)} {sys : System σ}, keys.length < rounds →
      sys.Answered (keys.flatMap prefixed ++ (prefixed [] ++ tail)) → sys.client.readBufSize = clientBufSize →
      results.length ≤ maxResults →
      (readResults server now maxResults rounds results).Ends sys
        (fun _ after => after.Answered tail ∧ ¬ Overruns (maxResults - results.length) keys)
        fun failure after => failure.IsCode → (after.Framed ↔ ¬ Overruns (maxResults - results.length) keys) := by
  induction keys with
  | nil =>
      intro rounds results sys enough answered _ _
      obtain ⟨rounds, rfl⟩ : ∃ less, rounds = less + 1 := ⟨rounds - 1, by rw [List.length_nil] at enough; omega⟩
      have last : Exchanges clientBufSize 0
          (orShutdown server now (onStream structuredStreamReadUint16PrefixedBytesInplace)) (prefixed []) [] [] :=
        (exchanges_readPrefixed (by decide) (by decide)).on.orShutdown server now
      rw [List.flatMap_nil, List.nil_append] at answered
      obtain ⟨ss, read, left⟩ := answered.receive last
      refine ends_bind_ok read ?_
      rw [if_pos List.length_nil]
      exact ends_of_ok (pure_apply _ _) ⟨left, fun overruns => Nat.not_lt_zero _ overruns.1⟩
  | cons key rest ih =>
      intro rounds results sys enough answered size few
      obtain ⟨rounds, rfl⟩ : ∃ less, rounds = less + 1 := ⟨rounds - 1, by rw [List.length_cons] at enough; omega⟩
      obtain ⟨⟨nonempty, short⟩, others⟩ := List.forall_mem_cons.mp valid
      have small : key.length < 2 ^ 16 := short.trans_lt (by decide)
      rw [List.flatMap_cons, List.append_assoc] at answered
      by_cases fits : key.length + 2 ≤ clientBufSize
      · obtain ⟨ss, read, left⟩ := answered.receive ((exchanges_readPrefixed small fits).on.orShutdown server now)
        refine ends_bind_ok read ?_
        rw [if_neg (by omega)]
        by_cases full : maxResults ≤ results.length
        · rw [if_pos full]
          have overruns : Overruns (maxResults - results.length) (key :: rest) := by
            rw [Nat.sub_eq_zero_of_le full]
            exact ⟨Nat.succ_pos _, List.forall_mem_singleton.mpr fits⟩
          have some : rest.flatMap prefixed ++ (prefixed [] ++ tail) ≠ [] := by
            intro none
            exact absurd (List.append_eq_nil_iff.mp (List.append_eq_nil_iff.mp none).2).1 (by decide)
          exact ends_of_error (throw_apply _ _) fun _ => iff_of_false (left.unframed some) (not_not_intro overruns)
        · have stored : ¬ maxBinaryLfmSize ≤ key.length := by
            unfold clientBufSize at fits
            unfold maxBinaryLfmSize
            omega
          rw [if_neg full, if_neg stored]
          have more : (results ++ [key]).length = results.length + 1 := by
            rw [List.length_append, List.length_singleton]
          have room : maxResults - results.length = maxResults - (results ++ [key]).length + 1 := by omega
          rw [room, overruns_succ fits]
          exact ih others (by rw [List.length_cons] at enough; omega) left size (by omega)
      · have never : ¬ Overruns (maxResults - results.length) (key :: rest) := fun overruns =>
          fits (overruns.2 key (by rw [List.take_succ_cons]; exact List.mem_cons_self))
        have bufSize : sys.client.ss.readBufSize = clientBufSize := answered.read.trans size
        obtain ⟨after, refused⟩ := readPrefixed_large answered.client small (by rw [bufSize]; decide)
          (by rw [bufSize]; exact Nat.not_le.mp fits) answered.answered
        have closes : (orShutdown server now (onStream structuredStreamReadUint16PrefixedBytesInplace)).Ends sys
            (fun _ _ => False) fun failure after => failure.IsCode →
              (after.Framed ↔ ¬ Overruns (maxResults - results.length) (key :: rest)) :=
          (orShutdown_ends (ends_of_error (onStream_error refused) trivial)).mono (fun _ _ never => never)
            fun _ _ closed code => iff_of_true (.of_closed (closed code)) never
        exact closes.bind fun _ _ never => never.elim

end

section
variable {σ : Type} {server : Server σ} {now : Int} {sys : System σ} {matchers : List (List UInt8 × List UInt8)}
  {allowFullScan : Bool} {maxResults : Nat}

/-- The last internal id is read when the request allows a full scan. -/
theorem exchanges_readLast (allowFullScan : Bool) (last : Nat) :
    ∃ value, Exchanges clientBufSize 0
      (orShutdown server now (onStream (if allowFullScan then structuredStreamReadUint64 else pure 0)))
      (if allowFullScan then bytesOf 8 last else []) [] value := by
  cases allowFullScan with
  | false => exact ⟨0, (exchanges_pure 0).on.orShutdown server now⟩
  | true =>
      have small := valueOf_lt (bytesOf 8 last)
      have same := bytesOf_valueOf (bytesOf 8 last)
      rw [bytesOf_length] at small same
      have number := @exchanges_readUint clientBufSize 0 8 _ (by decide) small
      rw [same] at number
      exact ⟨_, number.on.orShutdown server now⟩

/-- A client reads the response of a query to its end, unless it has more keys than the client has room for. -/
theorem clientQueryResponse_ends {data : Conn σ} {keys : List (List UInt8)} (valid : ∀ key ∈ keys, ValidKey key)
    {status last : Nat} (small : status < 128)
    (answered : sys.Answered (queryResponse allowFullScan (statusOf data status) (keys.flatMap prefixed) last))
    (size : sys.client.readBufSize = clientBufSize) :
    FramedUnless (Overruns maxResults keys) (clientQueryResponse server now allowFullScan maxResults) sys := by
  have long : keys.length ≤ (keys.flatMap prefixed).length := by
    rw [List.length_flatMap]
    have each : ∀ key ∈ keys, 1 ≤ (prefixed key).length := fun key _ => by rw [prefixed_length]; omega
    calc keys.length = (keys.map fun _ => 1).sum := by simp
      _ ≤ (keys.map fun key => (prefixed key).length).sum := List.sum_le_sum each
  have enough : keys.length < sys.client.ss.input.length + 1 := by
    rw [answered.answered, queryResponse, List.length_append]
    omega
  refine ends_bind_ok (get_apply sys) (Ends.bind (readResults_ends valid enough answered size (Nat.zero_le _)) ?_)
  rintro results middle ⟨left, never⟩
  have never : ¬ Overruns maxResults keys := never
  have ended : Exchanges clientBufSize 0 (do
      let response ← orShutdown server now readResponse
      pure (response, results) : SystemM σ (Nat × List (List UInt8))) (bytesOf 1 (statusOf data status) ++ []) []
      (status, results) := ((exchanges_readResponse data small).orShutdown server now).bind (exchanges_pure _)
  rw [List.append_nil] at ended
  obtain ⟨last', number⟩ := @exchanges_readLast σ server now allowFullScan last
  have both : Exchanges clientBufSize 0 (do
      let _ ← orShutdown server now (onStream (if allowFullScan then structuredStreamReadUint64 else pure 0))
      let response ← orShutdown server now readResponse
      pure (response, results) : SystemM σ (Nat × List (List UInt8)))
      ((if allowFullScan then bytesOf 8 last else []) ++ bytesOf 1 (statusOf data status)) ([] ++ []) (status, results) :=
    number.bind ended
  exact (left.reads both).mono (fun _ _ done => iff_of_true done never) fun _ _ failed => failed

end

section
variable {σ : Type} {server : Server σ} {now : Int} {sys : System σ} {matchers : List (List UInt8 × List UInt8)}
  {allowFullScan : Bool} {maxResults : Nat} {invariant : σ → Prop}

/-- Without a response the client ends the connection. -/
theorem clientQueryResponse_eof (valid : sys.client.ss.Valid) (none : sys.client.ss.input = [])
    (room : clientBufSize ≤ sys.client.ss.readBufSize) :
    LeavesFramed (clientQueryResponse server now allowFullScan maxResults) sys := by
  obtain ⟨ss, ended, _⟩ := structuredStreamEnsureRead_eof valid ((by decide : 2 ≤ clientBufSize).trans room)
    (by rw [none]; decide)
  have closes : (orShutdown server now (onStream structuredStreamReadUint16PrefixedBytesInplace)).Ends sys
      (fun _ _ => False) fun failure after => failure.IsCode → after.client.connected = false :=
    orShutdown_ends (ends_of_error (onStream_error (bind_error ended _)) trivial)
  have reads : (readResults server now maxResults (sys.client.ss.input.length + 1) []).Ends sys (fun _ _ => False)
      fun failure after => failure.IsCode → after.Framed :=
    (closes.mono (fun _ _ never => never) fun _ _ closed code => .of_closed (closed code)).bind
      fun _ _ never => never.elim
  exact ends_bind_ok (get_apply sys) (reads.bind fun _ _ never => never.elim)

theorem clientRequest_sendable (fit : MatchersFit matchers) (few : matchers.length < 256) :
    (clientRequest matchers allowFullScan).Sendable := by
  refine ⟨?_, ?_, fit, show 0 < 2 ^ 64 by decide, show 1000 < 2 ^ 64 by decide⟩
  · change (if allowFullScan then 1 else 0) < 256
    split <;> decide
  · change (sentMatchers matchers).length < 256
    rw [sentMatchers, List.length_map]
    exact few

theorem clientRequest_fullScan : (clientRequest matchers allowFullScan).fullScan = allowFullScan := by
  change (Nat.testBit (if allowFullScan then 1 else 0) 1 || Nat.testBit (if allowFullScan then 1 else 0) 0) = _
  cases allowFullScan <;> decide

theorem sentKeys_valid {calls : StorageCalls σ} {data : Conn σ} {request : QueryRequest} (hosts : Hosts calls invariant)
    (holds : invariant data.storage) : ∀ key ∈ sentKeys calls data request, ValidKey key := by
  rw [sentKeys]
  split
  · exact fun _ mem => absurd mem List.not_mem_nil
  · split
    · rename_i results last after found
      split
      · obtain ⟨keys, rfl, valid⟩ := handleConnQueryLookup_keys hosts holds found
        rw [resultKeys_prefixed valid]
        exact valid
      · exact fun _ mem => absurd mem List.not_mem_nil
    · exact fun _ mem => absurd mem List.not_mem_nil

/-- A query leaves a framed connection unless there are more keys than the client has room for. -/
theorem menoetiusClientQuery_framed (hosts : Hosts server.calls invariant) (idle : sys.Idle)
    (sound : sys.conn.Sound invariant) (readSize : sys.client.readBufSize = clientBufSize)
    (writeSize : sys.client.writeBufSize = clientBufSize) (few : matchers.length < 256) :
    FramedUnless (MatchersFit matchers ∧
        Overruns maxResults (sentKeys server.calls sys.conn (clientRequest matchers allowFullScan)))
      (menoetiusClientQuery server now matchers allowFullScan maxResults) sys := by
  rw [menoetiusClientQuery_eq]
  by_cases fit : MatchersFit matchers
  · rw [and_iff_right fit]
    have sends : Exchanges 0 clientBufSize (clientQueryRequest server now matchers allowFullScan) []
        (bytesOf 1 rpcQueryLfms ++ (clientRequest matchers allowFullScan).bytes) () := by
      have flags := (@exchanges_writeUint 0 clientBufSize 1 (if allowFullScan then 1 else 0) (by decide)).on
        (S := System σ) |>.orShutdown server now
      have count := (@exchanges_writeUint 0 clientBufSize 1 matchers.length (by decide)).on
        (S := System σ) |>.orShutdown server now
      have labels := (exchanges_writeMatchers fit).on (S := System σ) |>.orShutdown server now
      have offset := (@exchanges_writeUint 0 clientBufSize 8 0 (by decide)).on (S := System σ) |>.orShutdown server now
      have limit := (@exchanges_writeUint 0 clientBufSize 8 1000 (by decide)).on (S := System σ) |>.orShutdown server now
      have length : (sentMatchers matchers).length = matchers.length := List.length_map _
      rw [QueryRequest.bytes, clientRequest, length]
      exact ((exchanges_writeUint _ (by decide)).on.orShutdown server now).bind
        (flags.bind (count.bind (labels.bind (offset.bind limit))))
    refine clientCall_ends server now idle (by decide) (fun _ _ code => False.elim code)
      (fun ready isReady _ => isReady.sends sends) fun data same serving size => ?_
    have keys : sentKeys server.calls data (clientRequest matchers allowFullScan) =
        sentKeys server.calls sys.conn (clientRequest matchers allowFullScan) := by
      rw [sentKeys, sentKeys, same.storage, size]
    have holds : invariant data.storage := by
      rw [same.storage]
      exact sound.storage
    have sendable : (clientRequest matchers allowFullScan).Sendable := clientRequest_sendable fit few
    have handled := handleConnQueryLfms_sent hosts holds sendable serving
    rw [keys] at handled
    refine handled.mono ?_ ?_
    · rintro _ conn ⟨status, last, small, written, moved⟩
      rw [clientRequest_fullScan] at moved
      exact ⟨_, moved, written, fun after answered client => clientQueryResponse_ends
        (sentKeys_valid hosts sound.storage) small answered (client.readBufSize.trans readSize)⟩
    · intro failure conn failed code
      obtain ⟨silent, none⟩ := failed code
      refine ⟨silent, fun after valid input room => (clientQueryResponse_eof valid input room).unless ?_⟩
      rw [none]
      exact fun overruns => Nat.not_lt_zero _ overruns.1
  · refine LeavesFramed.unless (clientCall_refused idle fun ready isReady same => ?_) fun leaves => fit leaves.1
    have head : Exchanges 0 clientBufSize (do
        orShutdown server now (onStream (structuredStreamWriteUint8 rpcQueryLfms))
        orShutdown server now (onStream (structuredStreamWriteUint8 (if allowFullScan then 1 else 0)))
        orShutdown server now (onStream (structuredStreamWriteUint8 matchers.length)) : SystemM σ Unit)
        ([] ++ ([] ++ []))
        (bytesOf 1 rpcQueryLfms ++ (bytesOf 1 (if allowFullScan then 1 else 0) ++ bytesOf 1 matchers.length)) () :=
      ((exchanges_writeUint _ (by decide)).on.orShutdown server now).bind
        (((exchanges_writeUint _ (by decide)).on.orShutdown server now).bind
          ((exchanges_writeUint _ (by decide)).on.orShutdown server now))
    obtain ⟨ss, wrote, moved⟩ := head ready isReady.client (Nat.zero_le _)
      (isReady.sized.write.trans isReady.write.ge) List.nil_prefix
    have moved : ready.client.ss.Moved ss [] _ := moved
    have bufSize : ss.writeBufSize = clientBufSize :=
      moved.writeBufSize.trans (isReady.write.trans (same.writeBufSize.trans writeSize))
    obtain ⟨after, refused⟩ := writeMatchers_large fit moved.valid bufSize
    have closes : (orShutdown server now (onStream (writeMatchers matchers))).Ends (withStream ready ss)
        (fun _ _ => False) fun failure after => failure.IsCode → after.client.connected = false :=
      orShutdown_ends (ends_of_error (onStream_error refused) trivial)
    have split : clientQueryRequest server now matchers allowFullScan = ((do
        orShutdown server now (onStream (structuredStreamWriteUint8 rpcQueryLfms))
        orShutdown server now (onStream (structuredStreamWriteUint8 (if allowFullScan then 1 else 0)))
        orShutdown server now (onStream (structuredStreamWriteUint8 matchers.length)) : SystemM σ Unit) >>= fun _ =>
          orShutdown server now (onStream (writeMatchers matchers)) >>= fun _ =>
            orShutdown server now (onStream (structuredStreamWriteUint64 0)) >>= fun _ =>
              orShutdown server now (onStream (structuredStreamWriteUint64 1000))) := by
      unfold clientQueryRequest
      simp only [bind_assoc]
    rw [split]
    exact ends_bind_ok wrote (closes.bind fun _ _ never => never.elim)

end

end Menoetius
