import Menoetius.Connection
import Menoetius.StorageLookup

/-
This file shows which queries the server answers.
-/

namespace Menoetius
open LittleEndian LinkedList SearchTree

/-- What a client sends to query keys. -/
structure QueryRequest where
  flags : Nat
  matchers : List (List UInt8 × List UInt8)
  offset : Nat
  limit : Nat

/-- The labels and values on the wire. -/
def matcherBytes (matchers : List (List UInt8 × List UInt8)) : List UInt8 :=
  matchers.flatMap fun matcher => prefixed matcher.1 ++ prefixed matcher.2

def QueryRequest.bytes (request : QueryRequest) : List UInt8 :=
  bytesOf 1 request.flags ++ (bytesOf 1 request.matchers.length ++ (matcherBytes request.matchers ++
    (bytesOf 8 request.offset ++ bytesOf 8 request.limit)))

/-- The labels and values in the buffer of the handler. -/
def labelBytes (matchers : List (List UInt8 × List UInt8)) : List UInt8 :=
  matchers.flatMap fun matcher => (matcher.1 ++ [0]) ++ (matcher.2 ++ [0])

/-- The matchers fit the buffer of the handler, and the numbers fit their fields. -/
structure QueryRequest.WellFormed (request : QueryRequest) : Prop where
  flags : request.flags < 256
  few : request.matchers.length < 256
  fits : (labelBytes request.matchers).length < maxLabelMatches
  offset : request.offset < 2 ^ 64
  limit : request.limit < 2 ^ 64

/-- One label and its value are read. -/
def Matchers.added (indices : List (List UInt8)) (matchers : Matchers) (matcher : List UInt8 × List UInt8) : Matchers :=
  let labelled := { matchers.select indices matcher.1 with labelMatches := matchers.labelMatches ++ (matcher.1 ++ [0]) }
  { labelled.latch with labelMatches := labelled.labelMatches ++ (matcher.2 ++ [0]) }

theorem select_labelMatches (indices : List (List UInt8)) (matchers : Matchers) (label : List UInt8) :
    (matchers.select indices label).labelMatches = matchers.labelMatches := by
  unfold Matchers.select
  dsimp only
  repeat' split
  all_goals rfl

theorem labelBytes_cons (matcher : List UInt8 × List UInt8) (rest : List (List UInt8 × List UInt8)) :
    labelBytes (matcher :: rest) = ((matcher.1 ++ [0]) ++ (matcher.2 ++ [0])) ++ labelBytes rest := rfl

theorem addLabel_run {indices : List (List UInt8)} {matchers : Matchers} {label : List UInt8}
    (fits : matchers.labelMatches.length + label.length + 1 < maxLabelMatches) :
    matchers.addLabel indices label =
      .ok { matchers.select indices label with labelMatches := matchers.labelMatches ++ (label ++ [0]) } := by
  rw [Matchers.addLabel, Matchers.append, select_labelMatches, if_neg (by omega)]

theorem addValue_run {matchers : Matchers} {value : List UInt8}
    (fits : matchers.labelMatches.length + value.length + 1 < maxLabelMatches) :
    matchers.addValue value =
      .ok { matchers.latch with labelMatches := matchers.labelMatches ++ (value ++ [0]) } := by
  rw [Matchers.addValue, Matchers.append]
  exact if_neg (by change ¬ maxLabelMatches ≤ matchers.labelMatches.length + value.length + 1; omega)

section
variable {readSize writeSize : Nat}

theorem exchanges_ofExcept {α : Type} {result : Except Failure α} {value : α} (ok : result = .ok value) :
    Exchanges readSize writeSize (ofExcept result : StreamM α) [] [] value := by
  rw [ok]
  exact exchanges_pure value

/-- The labels are read one after the other. -/
theorem exchanges_queryLabels (indices : List (List UInt8)) (requested : List (List UInt8 × List UInt8))
    (matchers : Matchers) (fits : (matchers.labelMatches ++ labelBytes requested).length < maxLabelMatches)
    (room : maxLabelMatches + 2 ≤ readSize) :
    Exchanges readSize writeSize (handleConnQueryLabels indices requested.length matchers) (matcherBytes requested) []
      (requested.foldl (Matchers.added indices) matchers) := by
  induction requested generalizing matchers with
  | nil => exact exchanges_pure matchers
  | cons matcher rest ih =>
      rw [labelBytes_cons, List.length_append, List.length_append, List.length_append, List.length_append,
        List.length_append, List.length_singleton] at fits
      have small : maxLabelMatches < 2 ^ 16 := by decide
      have label := @exchanges_readPrefixed readSize writeSize matcher.1 (by omega) (by omega)
      have value := @exchanges_readPrefixed readSize writeSize matcher.2 (by omega) (by omega)
      have first : matchers.addLabel indices matcher.1 = .ok _ := addLabel_run (by omega)
      have second : Matchers.addValue _ matcher.2 = .ok (matchers.added indices matcher) :=
        addValue_run (by
          change (matchers.labelMatches ++ (matcher.1 ++ [0])).length + matcher.2.length + 1 < maxLabelMatches
          rw [List.length_append, List.length_append, List.length_singleton]
          omega)
      have next := ih (matchers.added indices matcher) (by
        change (((matchers.labelMatches ++ (matcher.1 ++ [0])) ++ (matcher.2 ++ [0])) ++ labelBytes rest).length < _
        rw [List.length_append, List.length_append, List.length_append, List.length_append, List.length_append,
          List.length_singleton]
        omega)
      have split : matcherBytes (matcher :: rest) =
          prefixed matcher.1 ++ ([] ++ (prefixed matcher.2 ++ ([] ++ matcherBytes rest))) := by
        rw [matcherBytes, List.flatMap_cons, List.append_assoc]
        rfl
      rw [split]
      exact label.bind ((exchanges_ofExcept first).bind (value.bind ((exchanges_ofExcept second).bind next)))

end

/-- The query that the handler reads. -/
def QueryRequest.query (indices : List (List UInt8)) (request : QueryRequest) : Query where
  flags := request.flags
  numLabels := request.matchers.length
  matchers := request.matchers.foldl (Matchers.added indices) ⟨none, none, []⟩
  offset := request.offset
  limit := request.limit

section
variable {σ : Type} (calls : StorageCalls σ) {readSize writeSize : Nat}

theorem exchanges_queryRead {request : QueryRequest} (wellFormed : request.WellFormed)
    (room : maxLabelMatches + 2 ≤ readSize) :
    Exchanges readSize writeSize (handleConnQueryRead calls) request.bytes [] (request.query calls.indices) := by
  have size : maxLabelMatches = 5120 := rfl
  have flags := @exchanges_readUint readSize writeSize 1 request.flags (by omega) wellFormed.flags
  have count := @exchanges_readUint readSize writeSize 1 request.matchers.length (by omega) wellFormed.few
  have labels := @exchanges_queryLabels readSize writeSize calls.indices request.matchers ⟨none, none, []⟩
    (by rw [List.nil_append]; exact wellFormed.fits) room
  have offset := @exchanges_readUint readSize writeSize 8 request.offset (by omega) wellFormed.offset
  have limit := @exchanges_readUint readSize writeSize 8 request.limit (by omega) wellFormed.limit
  have split : request.bytes = bytesOf 1 request.flags ++ (bytesOf 1 request.matchers.length ++
      (matcherBytes request.matchers ++ (bytesOf 8 request.offset ++ (bytesOf 8 request.limit ++ [])))) := by
    rw [QueryRequest.bytes, List.append_nil]
  rw [split]
  exact flags.bind (count.bind (labels.bind (offset.bind (limit.bind
    (exchanges_pure (request.query calls.indices))))))

end

/-- The flags and the offset are ones that the handler looks up. -/
def Query.Accepted (query : Query) : Prop :=
  query.forceFullScan = true ∨ query.matchers.indexNum ≠ none ∨ (query.allowFullScan = true ∧ query.offset = 0)

/-- The lookups of the server are those in the trees of its storage. -/
structure LooksUp {σ : Type} (calls : StorageCalls σ) (view : σ → Indexes) : Prop where
  lookup : ∀ storage indexNum value matchers numMatchers room offset limit,
    calls.storageLookup indexNum value matchers numMatchers room offset limit storage =
      ofExcept ((view storage).storageLookup indexNum (CString.at value) matchers numMatchers room offset limit) storage
  scan : ∀ storage matchers numMatchers room lastInternalId limit,
    calls.storageLookupWithoutIndex matchers numMatchers room lastInternalId limit storage =
      ofExcept ((view storage).storageLookupWithoutIndex matchers numMatchers room lastInternalId limit) storage

/-- The place in the list where a full scan starts. -/
def Query.start (query : Query) : Nat := if query.forceFullScan then query.offset else 0

/-- The value that is looked up in a tree. -/
def Query.value (query : Query) : CString :=
  CString.at (query.matchers.labelMatches.drop (query.matchers.indexVal.getD 0))

/-- The tree that is looked up. -/
def Query.lookupIndex (query : Query) : Option Nat :=
  if query.forceFullScan then none else query.matchers.indexNum

namespace Indexes

/-- The items that a query asks for. -/
def queried (store : Indexes) (query : Query) : List IndexItem :=
  match query.lookupIndex with
  | none => pageOf query.matchers.labelMatches query.numLabels 0 query.limit (store.scanItems query.start)
  | some indexNum =>
      ((store.matched indexNum query.value query.matchers.labelMatches query.numLabels).drop query.offset).take query.limit

/-- The last internal id that goes with them. -/
def queriedId (store : Indexes) (query : Query) : Nat :=
  if query.lookupIndex = none then lastIdOf query.start (store.queried query) else 0

end Indexes

/-- The labels select only trees that exist. -/
def Matchers.Selects (indices : List (List UInt8)) (matchers : Matchers) : Prop :=
  ∀ indexNum, matchers.indexNum = some indexNum →
    indexNum = nameIndex ∨ (numSpecialIndices ≤ indexNum ∧ indexNum < indices.length + numSpecialIndices)

theorem Matchers.Selects.select {indices : List (List UInt8)} {matchers : Matchers} (selects : matchers.Selects indices)
    (label : List UInt8) : (matchers.select indices label).Selects indices := by
  have found : ∀ start j, (indices.drop start).findIdx? (fun name => name = label) = some j →
      start + j + numSpecialIndices < indices.length + numSpecialIndices := by
    intro start j found
    have bound := (List.findIdx?_eq_some_iff_findIdx_eq.mp found).1
    rw [List.length_drop] at bound
    omega
  unfold Matchers.select
  dsimp only
  split
  · intro indexNum same
    cases same
    exact Or.inl rfl
  · split
    next j selected =>
      intro indexNum same
      cases same
      exact Or.inr ⟨Nat.le_add_left _ _, found _ j selected⟩
    next => exact selects

theorem selects_foldl {indices : List (List UInt8)} (requested : List (List UInt8 × List UInt8)) {matchers : Matchers}
    (selects : matchers.Selects indices) : (requested.foldl (Matchers.added indices) matchers).Selects indices := by
  induction requested generalizing matchers with
  | nil => exact selects
  | cons matcher rest ih => exact ih (selects.select matcher.1)

theorem cString_at (bytes : List UInt8) : CString.at (cString bytes) = CString.at bytes := by
  apply CString.ext_bytes
  change (cString bytes).takeWhile (fun byte => byte != 0) = bytes.takeWhile fun byte => byte != 0
  have same : cString bytes = bytes.takeWhile fun byte => byte != 0 := by
    unfold cString
    congr 1
    funext byte
    rw [bne, decide_not]
    rfl
  rw [same, List.takeWhile_takeWhile]
  congr 1
  funext byte
  cases byte != 0 <;> rfl

section
variable {σ : Type} {calls : StorageCalls σ} {view : σ → Indexes}

/-- A query finds its items, or it reports that there is no room for them. -/
def QueryFinds (calls : StorageCalls σ) (store : Indexes) (query : Query) (storage : σ) : Prop :=
  ((resultsOf (store.queried query)).length ≤ maxLfmResults ∧
    handleConnQueryLookup calls query storage =
      .ok (none, resultsOf (store.queried query), store.queriedId query) storage) ∨
  (maxLfmResults < (resultsOf (store.queried query)).length ∧
    ∃ part last, handleConnQueryLookup calls query storage = .ok (some .bufTooSmall, part, last) storage)

theorem QueryFinds.of_scan {store : Indexes} {storage : σ} {items : List IndexItem}
    (consistent : store.Consistent items []) {query : Query} (none : query.lookupIndex = none)
    (run : handleConnQueryLookup calls query storage =
      ofExcept (store.storageLookupWithoutIndex query.matchers.labelMatches query.numLabels maxLfmResults query.start
        query.limit) storage) : QueryFinds calls store query storage := by
  have found := Indexes.storageLookupWithoutIndex_run consistent query.matchers.labelMatches query.numLabels
    maxLfmResults query.start query.limit
  have same : store.queried query =
      pageOf query.matchers.labelMatches query.numLabels 0 query.limit (store.scanItems query.start) := by
    rw [Indexes.queried, none]
  rw [← same] at found
  rw [QueryFinds, run, Indexes.queriedId, if_pos none]
  exact found.imp (fun ⟨fits, run⟩ => ⟨fits, by rw [run]; rfl⟩)
    fun ⟨large, part, last, run⟩ => ⟨large, part, last, by rw [run]; rfl⟩

theorem handleConnQueryLookup_run (looks : LooksUp calls view) {storage : σ} {items : List IndexItem}
    (consistent : (view storage).Consistent items [])
    (configured : calls.indices = (view storage).indices.map CString.bytes) {query : Query} (accepted : query.Accepted)
    (selects : query.matchers.Selects calls.indices) : QueryFinds calls (view storage) query storage := by
  by_cases forced : query.forceFullScan = true
  · have start : query.start = query.offset := if_pos forced
    refine .of_scan consistent (if_pos forced) ?_
    rw [handleConnQueryLookup, if_pos forced, looks.scan, start]
  · have start : query.start = 0 := if_neg forced
    have index : query.lookupIndex = query.matchers.indexNum := if_neg forced
    cases chosen : query.matchers.indexNum with
    | none =>
        obtain ⟨allowed, zero⟩ : query.allowFullScan = true ∧ query.offset = 0 :=
          (accepted.resolve_left forced).resolve_left fun some => some chosen
        refine .of_scan consistent (index.trans chosen) ?_
        rw [handleConnQueryLookup, if_neg forced, chosen]
        dsimp only
        rw [if_neg (by omega), if_pos allowed, looks.scan, start]
    | some indexNum =>
        have valid : (view storage).LookupIndex indexNum := by
          have selected := selects indexNum chosen
          rwa [configured, List.length_map] at selected
        have page : (view storage).queried query = (((view storage).matched indexNum query.value
            query.matchers.labelMatches query.numLabels).drop query.offset).take query.limit := by
          rw [Indexes.queried, index, chosen]
        have call : handleConnQueryLookup calls query storage =
            lookupResult (calls.storageLookup indexNum
              (cString (query.matchers.labelMatches.drop (query.matchers.indexVal.getD 0))) query.matchers.labelMatches
              query.numLabels maxLfmResults query.offset query.limit) storage := by
          rw [handleConnQueryLookup, if_neg forced, chosen]
        have found := Indexes.storageLookup_run consistent valid query.value query.matchers.labelMatches query.numLabels
          maxLfmResults query.offset query.limit
        rw [← page] at found
        have id : (view storage).queriedId query = 0 := if_neg (by rw [index, chosen]; exact nofun)
        rw [QueryFinds, call, lookupResult, looks.lookup, cString_at, ← Query.value, found, id]
        by_cases fits : (resultsOf ((view storage).queried query)).length ≤ maxLfmResults
        · rw [if_pos fits]
          exact Or.inl ⟨fits, rfl⟩
        · rw [if_neg fits]
          exact Or.inr ⟨by omega, [], 0, rfl⟩

end

/-- The bytes of an answer. -/
def queryResponse (fullScan : Bool) (status : Nat) (results : List UInt8) (lastInternalId : Nat) : List UInt8 :=
  results ++ (prefixed [] ++ ((if fullScan then bytesOf 8 lastInternalId else []) ++ bytesOf 1 status))

section
variable {readSize writeSize : Nat}

/-- The action adds these bytes and sends all that was written. -/
def Sends (writeSize : Nat) (action : StreamM Unit) (added : List UInt8) : Prop :=
  ∀ ss : Stream, ss.Valid → writeSize ≤ ss.writeBufSize →
    ∃ after, action ss = .ok () after ∧ after.outgoing = ss.output ++ added

theorem sends_flush : Sends writeSize structuredStreamFlush [] :=
  fun _ _ _ => ⟨_, rfl, (List.append_nil _).symm⟩

theorem Exchanges.sends {α : Type} {first : StreamM α} {next : α → StreamM Unit} {added more : List UInt8} {value : α}
    (start : Exchanges 0 writeSize first [] added value) (rest : Sends writeSize (next value) more) :
    Sends writeSize (first >>= next) (added ++ more) := by
  intro ss valid write
  obtain ⟨middle, run, moved⟩ := start ss valid (Nat.zero_le _) write List.nil_prefix
  have run : first ss = .ok value middle := run
  have moved : ss.Moved middle [] added := moved
  obtain ⟨after, again, sent⟩ := rest middle moved.valid (moved.writeBufSize ▸ write)
  refine ⟨after, by rw [EStateM.bind_ok run, again], ?_⟩
  rw [sent, moved.output, List.append_assoc]

/-- The end of an answer is sent. -/
theorem handleConnQueryAnswer_end (fullScan : Bool) (status : Nat) (err : Err) (results : List UInt8)
    (lastInternalId : Nat) (room : 8 ≤ writeSize) :
    Sends writeSize (handleConnQueryAnswer fullScan status (some err) results lastInternalId)
      (queryResponse fullScan status [] lastInternalId) := by
  have first : Exchanges 0 writeSize (structuredStreamWriteUint16PrefixedString []) [] (prefixed []) () :=
    exchanges_writePrefixed (by decide) (Nat.zero_le _) (by omega)
  have second : Exchanges 0 writeSize (structuredStreamWriteUint8 status) [] (bytesOf 1 status) () :=
    exchanges_writeUint status (by omega)
  have third : Exchanges 0 writeSize (structuredStreamWriteUint64 lastInternalId) [] (bytesOf 8 lastInternalId) () :=
    exchanges_writeUint lastInternalId room
  have last : Sends writeSize (structuredStreamWriteUint8 status >>= fun _ => structuredStreamFlush)
      (bytesOf 1 status) := by
    have sent : Sends writeSize (structuredStreamWriteUint8 status >>= fun _ => structuredStreamFlush)
        (bytesOf 1 status ++ []) := second.sends sends_flush
    rwa [List.append_nil] at sent
  cases fullScan with
  | false => exact first.sends last
  | true => exact first.sends (third.sends last)

/-- An answer with results that fit the buffer is sent. -/
theorem handleConnQueryAnswer_sends (fullScan : Bool) (status : Nat) {results : List UInt8} (lastInternalId : Nat)
    (room : 8 ≤ writeSize) (fits : results.length ≤ writeSize) :
    Sends writeSize (handleConnQueryAnswer fullScan status none results lastInternalId)
      (queryResponse fullScan status results lastInternalId) := by
  have first : Exchanges 0 writeSize (structuredStreamWriteBytes results) [] results () := exchanges_writeBytes fits
  exact first.sends (handleConnQueryAnswer_end fullScan status .unknown results lastInternalId room)

/-- An answer that does not fit the buffer fails, and nothing is sent. -/
theorem handleConnQueryAnswer_fails (fullScan : Bool) (status : Nat) {results : List UInt8} (lastInternalId : Nat)
    {ss : Stream} (large : ss.writeBufSize < results.length) :
    handleConnQueryAnswer fullScan status none results lastInternalId ss =
      .error (.code .structuredStreamBufTooSmall) ss := by
  have failed : structuredStreamWriteBytes results ss = .error (.code .structuredStreamBufTooSmall) ss := by
    unfold structuredStreamWriteBytes structuredStreamEnsureWrite
    refine EStateM.bind_error ?_ _
    rw [EStateM.bind_ok (EStateM.get_apply ss), if_neg (by omega), if_pos large]
    rfl
  exact EStateM.bind_error failed _

end

section
variable {σ : Type} {calls : StorageCalls σ} {view : σ → Indexes}

/-- All keys up to the limit with the status of a success, or none with the status of too many keys. -/
def FullAnswer (data : Conn σ) (store : Indexes) (query : Query) (added : List UInt8) : Prop :=
  let fullScan := query.forceFullScan || query.allowFullScan
  added = queryResponse fullScan (statusOf data 0) (resultsOf (store.queried query)) (store.queriedId query) ∨
    (connBufSize < (resultsOf (store.queried query)).length ∧
      ∃ last, added = queryResponse fullScan (statusOf data statusTooManyMetrics) [] last)

/-- The handler returns after it has sent a full answer. -/
def Answers (calls : StorageCalls σ) (data : Conn σ) (store : Indexes) (query : Query) : Prop :=
  ∃ after added, handleConnQueryLfms calls data = .ok () after ∧ after.ss.outgoing = data.ss.output ++ added ∧
    FullAnswer data store query added

/-- A connection of the server with the request in front, and buffers of the default size. -/
structure Conn.Asked (data : Conn σ) (request : QueryRequest) : Prop where
  valid : data.ss.Valid
  read : data.ss.readBufSize = connBufSize
  write : data.ss.writeBufSize = connBufSize
  input : request.bytes <+: data.ss.input

/-- The handler has read the query. -/
theorem Conn.Asked.query {data : Conn σ} {request : QueryRequest} (asked : data.Asked request)
    (wellFormed : request.WellFormed) :
    ∃ ss, onStream (handleConnQueryRead calls) data = .ok (request.query calls.indices) { data with ss } ∧
      ss.Valid ∧ ss.writeBufSize = connBufSize ∧ ss.output = data.ss.output := by
  have read := (@exchanges_queryRead σ calls connBufSize 0 request wellFormed (by decide)).on (S := Conn σ)
  obtain ⟨ss, run, moved⟩ := read data asked.valid asked.read.ge (Nat.zero_le _) asked.input
  have moved : data.ss.Moved ss request.bytes [] := moved
  exact ⟨ss, run, moved.valid, moved.writeBufSize.trans asked.write, by rw [moved.output, List.append_nil]⟩

theorem queried_selects (indices : List (List UInt8)) (request : QueryRequest) :
    (request.query indices).matchers.Selects indices := selects_foldl request.matchers nofun

/-- What the handler does with the results of a lookup. -/
theorem handleConnQueryLfms_eq {data : Conn σ} {query : Query} {ss : Stream} {err : Option Err}
    {results : List UInt8} {last : Nat}
    (read : onStream (handleConnQueryRead calls) data = .ok query { data with ss })
    (found : handleConnQueryLookup calls query data.storage = .ok (err, results, last) data.storage) :
    handleConnQueryLfms calls data =
      onStream (handleConnQueryAnswer (query.forceFullScan || query.allowFullScan)
        (statusOf data (queryErrorCode err)) err results last) { data with ss } := by
  have looked : onStorage (handleConnQueryLookup calls query) { data with ss } =
      .ok (err, results, last) { data with ss } := by
    unfold onStorage
    dsimp only
    rw [found]
  rw [handleConnQueryLfms, EStateM.bind_ok read, EStateM.bind_ok looked]
  exact EStateM.bind_ok (EStateM.get_apply _) _

end

section
variable {σ : Type} {calls : StorageCalls σ} {view : σ → Indexes} {data : Conn σ} {request : QueryRequest}
  {items : List IndexItem}

/-- The bytes of the keys that a request asks for. -/
def queriedBytes (calls : StorageCalls σ) (view : σ → Indexes) (data : Conn σ) (request : QueryRequest) : List UInt8 :=
  resultsOf ((view data.storage).queried (request.query calls.indices))

/-- More results than the lookup has room for are reported. -/
theorem handleConnQueryLfms_reports (looks : LooksUp calls view) (consistent : (view data.storage).Consistent items [])
    (configured : calls.indices = (view data.storage).indices.map CString.bytes)
    (asked : data.Asked request) (wellFormed : request.WellFormed) (accepted : (request.query calls.indices).Accepted)
    (large : maxLfmResults < (queriedBytes calls view data request).length) :
    Answers calls data (view data.storage) (request.query calls.indices) := by
  obtain ⟨ss, read, valid, write, output⟩ := @Conn.Asked.query σ calls data request asked wellFormed
  rcases handleConnQueryLookup_run looks consistent configured accepted (queried_selects calls.indices request) with
    ⟨fits, _⟩ | ⟨_, part, last, found⟩
  · exact absurd fits (Nat.not_le.mpr large)
  · obtain ⟨after, run, sent⟩ := handleConnQueryAnswer_end
      ((request.query calls.indices).forceFullScan || (request.query calls.indices).allowFullScan)
      (statusOf data statusTooManyMetrics) .bufTooSmall part last (by decide : 8 ≤ connBufSize) ss valid write.ge
    refine ⟨{ data with ss := after }, _, ?_, ?_, Or.inr ⟨lt_trans (by decide) large, last, rfl⟩⟩
    · rw [handleConnQueryLfms_eq read found]
      exact onStream_ok run
    · rw [← output]
      exact sent

/-- Results that fit the buffer of the connection are sent. -/
theorem handleConnQueryLfms_sends (looks : LooksUp calls view) (consistent : (view data.storage).Consistent items [])
    (configured : calls.indices = (view data.storage).indices.map CString.bytes)
    (asked : data.Asked request) (wellFormed : request.WellFormed) (accepted : (request.query calls.indices).Accepted)
    (small : (queriedBytes calls view data request).length ≤ connBufSize) :
    Answers calls data (view data.storage) (request.query calls.indices) := by
  obtain ⟨ss, read, valid, write, output⟩ := @Conn.Asked.query σ calls data request asked wellFormed
  rcases handleConnQueryLookup_run looks consistent configured accepted (queried_selects calls.indices request) with
    ⟨_, found⟩ | ⟨large, _⟩
  · obtain ⟨after, run, sent⟩ := handleConnQueryAnswer_sends
      ((request.query calls.indices).forceFullScan || (request.query calls.indices).allowFullScan)
      (statusOf data 0) ((view data.storage).queriedId (request.query calls.indices)) (by decide : 8 ≤ connBufSize) small
      ss valid write.ge
    refine ⟨{ data with ss := after }, _, ?_, ?_, Or.inl rfl⟩
    · rw [handleConnQueryLfms_eq read found]
      exact onStream_ok run
    · rw [← output]
      exact sent
  · exact absurd small (Nat.not_le.mpr (lt_trans (by decide) large))

/-- Results that fit the lookup but not the buffer end the connection, and nothing is sent. -/
theorem handleConnQueryLfms_fails (looks : LooksUp calls view) (consistent : (view data.storage).Consistent items [])
    (configured : calls.indices = (view data.storage).indices.map CString.bytes)
    (asked : data.Asked request) (wellFormed : request.WellFormed) (accepted : (request.query calls.indices).Accepted)
    (large : connBufSize < (queriedBytes calls view data request).length)
    (fits : (queriedBytes calls view data request).length ≤ maxLfmResults) :
    ∃ after, handleConnQueryLfms calls data = .error (.code .structuredStreamBufTooSmall) after ∧
      after.ss.output = data.ss.output := by
  obtain ⟨ss, read, valid, write, output⟩ := @Conn.Asked.query σ calls data request asked wellFormed
  rcases handleConnQueryLookup_run looks consistent configured accepted (queried_selects calls.indices request) with
    ⟨_, found⟩ | ⟨larger, _⟩
  · refine ⟨{ data with ss }, ?_, output⟩
    rw [handleConnQueryLfms_eq read found]
    refine onStream_error (handleConnQueryAnswer_fails _ _ _ ?_)
    change ss.writeBufSize < _
    rw [write]
    exact large
  · exact absurd fits (Nat.not_le.mpr larger)

/-- A query gets its answer if and only if its results fit the buffer of the connection or are more than the lookup has
room for. -/
theorem handleConnQueryLfms_answers_iff (looks : LooksUp calls view) {debugBuild : Bool} {indices : List CString}
    (reached : Indexes.Reached debugBuild indices true (view data.storage))
    (configured : calls.indices = indices.map CString.bytes) (asked : data.Asked request)
    (wellFormed : request.WellFormed) (accepted : (request.query calls.indices).Accepted) :
    Answers calls data (view data.storage) (request.query calls.indices) ↔
      ¬ (connBufSize < (queriedBytes calls view data request).length ∧
        (queriedBytes calls view data request).length ≤ maxLfmResults) := by
  obtain ⟨named, _, placeholders, consistent, none⟩ := reached.agrees
  rw [none rfl] at consistent
  rw [← named] at configured
  constructor
  · rintro ⟨after, added, run, _⟩ ⟨large, fits⟩
    obtain ⟨ended, failed, _⟩ := handleConnQueryLfms_fails looks consistent configured asked wellFormed accepted large fits
    rw [failed] at run
    cases run
  · intro outside
    by_cases small : (queriedBytes calls view data request).length ≤ connBufSize
    · exact handleConnQueryLfms_sends looks consistent configured asked wellFormed accepted small
    · exact handleConnQueryLfms_reports looks consistent configured asked wellFormed accepted
        (Nat.not_le.mp fun fits => outside ⟨Nat.not_le.mp small, fits⟩)

end

/-- The calls of a storage that is only queried. -/
def queryCalls (indices : List CString) : StorageCalls Indexes where
  storageWrite := fun _ _ => throw (.code .unknown)
  storageGet := fun _ _ => throw (.code .lookupFailed)
  storageLookup := fun indexNum value matchers numMatchers room offset limit store =>
    ofExcept (store.storageLookup indexNum (CString.at value) matchers numMatchers room offset limit) store
  storageLookupWithoutIndex := fun matchers numMatchers room lastInternalId limit store =>
    ofExcept (store.storageLookupWithoutIndex matchers numMatchers room lastInternalId limit) store
  indices := indices.map CString.bytes
  retentionSeconds := 10
  sha1 := id

theorem queryCalls_looksUp (indices : List CString) : LooksUp (queryCalls indices) id :=
  ⟨fun _ _ _ _ _ _ _ _ => rfl, fun _ _ _ _ _ _ => rfl⟩

/-- A connection with a request in its socket. -/
def askedConn (store : Indexes) (request : QueryRequest) : Conn Indexes where
  ss := { structuredStreamNew connBufSize connBufSize fun _ => 0 with incoming := request.bytes }
  hasValidConfig := false
  storage := store
  clusterConfig := none
  clusterConfigHash := []

theorem askedConn_asked (store : Indexes) (request : QueryRequest) : (askedConn store request).Asked request :=
  ⟨⟨Nat.zero_le _, Nat.zero_le _⟩, rfl, rfl, List.prefix_refl _⟩

/-- All keys, up to a thousand of them. -/
def allKeys : QueryRequest := ⟨1, [], 0, 1000⟩

theorem allKeys_wellFormed : allKeys.WellFormed := ⟨by decide, by decide, by decide, by decide, by decide⟩

theorem allKeys_accepted : (allKeys.query (queryCalls []).indices).Accepted := Or.inr (Or.inr ⟨rfl, rfl⟩)

/-- A query for all keys returns each with its length. -/
theorem allKeys_length {store : Indexes} {size : Nat} (few : store.listItems.length ≤ 1000)
    (sizes : ∀ item ∈ store.listItems, item.keyBytes.length + 2 = size) :
    (queriedBytes (queryCalls []) id (askedConn store allKeys) allKeys).length = store.listItems.length * size := by
  have all : store.queried (allKeys.query (queryCalls []).indices) = store.listItems := by
    change ((store.listItems.filter fun item => item.meets [] 0).drop 0).take 1000 = store.listItems
    have every : (store.listItems.filter fun item => item.meets [] 0) = store.listItems :=
      List.filter_eq_self.mpr fun item _ => rfl
    rw [every, List.drop_zero, List.take_of_length_le few]
  change (resultsOf (store.queried (allKeys.query (queryCalls []).indices))).length = _
  rw [all, resultsOf, List.length_flatMap]
  have each : store.listItems.map (fun item => item.result.length) = store.listItems.map fun _ => size :=
    List.map_congr_left fun item mem => (result_length item).trans (sizes item mem)
  rw [each, List.map_const', List.sum_replicate, smul_eq_mul]

/-- Keys of the greatest length. -/
def longKeys : List (List UInt8) := (List.range 128).map fun number => List.replicate 1023 97 ++ [UInt8.ofNat number]

theorem longKeys_length {key : List UInt8} (mem : key ∈ longKeys) : key.length = 1024 := by
  obtain ⟨number, _, rfl⟩ := List.mem_map.mp mem
  rw [List.length_append, List.length_replicate, List.length_singleton]

theorem longKeys_nodup : longKeys.Nodup := by
  refine List.Nodup.map_on ?_ List.nodup_range
  intro first inFirst second inSecond same
  have last := List.append_cancel_left same
  have equal : UInt8.ofNat first = UInt8.ofNat second := List.singleton_inj.mp last
  have numbers := congrArg UInt8.toNat equal
  rw [UInt8.toNat_ofNat', UInt8.toNat_ofNat'] at numbers
  rw [List.mem_range] at inFirst inSecond
  omega

/-- A query that matches 128 keys of 1024 bytes ends the connection without an answer. -/
theorem handleConnQueryLfms_longKeys :
    ∃ store, Indexes.Reached false [] true store ∧
      (∃ after, handleConnQueryLfms (queryCalls []) (askedConn store allKeys) =
        .error (.code .structuredStreamBufTooSmall) after ∧ after.ss.output = []) ∧
      ¬ Answers (queryCalls []) (askedConn store allKeys) store (allKeys.query (queryCalls []).indices) := by
  obtain ⟨store, reached, keys⟩ := Indexes.reached_of_keys longKeys longKeys_nodup
    (fun key mem => by rw [ValidKey, longKeys_length mem]; decide) (by rw [longKeys, List.length_map, List.length_range]; decide)
  obtain ⟨named, _, placeholders, consistent, none⟩ := reached.agrees
  rw [none rfl] at consistent
  have count : store.listItems.length = 128 := by
    have lengths := congrArg List.length keys
    rwa [List.length_map, longKeys, List.length_map, List.length_range] at lengths
  have size := @allKeys_length store 1026 (by rw [count]; decide) fun item mem => by
    rw [longKeys_length (keys ▸ List.mem_map_of_mem mem)]
  rw [count] at size
  have configured : (queryCalls []).indices = store.indices.map CString.bytes := by
    rw [named]
    rfl
  obtain ⟨after, failed, silent⟩ := @handleConnQueryLfms_fails _ _ id (askedConn store allKeys) allKeys store.listItems
    (queryCalls_looksUp []) consistent configured (askedConn_asked store allKeys) allKeys_wellFormed allKeys_accepted
    (by rw [size]; decide) (by rw [size]; decide)
  refine ⟨store, reached, ⟨after, failed, silent⟩, ?_⟩
  rintro ⟨final, added, run, _⟩
  rw [failed] at run
  cases run

/-- A query for the key `m` is answered. -/
theorem handleConnQueryLfms_answers_oneKey :
    ∃ store, Indexes.Reached false [] true store ∧ store.listItems.map IndexItem.keyBytes = [[109]] ∧
      Answers (queryCalls []) (askedConn store allKeys) store (allKeys.query (queryCalls []).indices) := by
  obtain ⟨store, reached, keys⟩ := Indexes.reached_of_keys [[109]] (by decide)
    (fun key mem => by cases List.mem_singleton.mp mem; exact ⟨by decide, by decide⟩) (by decide)
  have count : store.listItems.length = 1 := by
    have lengths := congrArg List.length keys
    rwa [List.length_map] at lengths
  have size := @allKeys_length store 3 (by rw [count]; decide) fun item mem => by
    have there : item.keyBytes ∈ [[(109 : UInt8)]] := keys ▸ List.mem_map_of_mem mem
    rw [List.mem_singleton.mp there]
    rfl
  rw [count] at size
  refine ⟨store, reached, keys, ?_⟩
  refine (@handleConnQueryLfms_answers_iff _ _ id (askedConn store allKeys) allKeys (queryCalls_looksUp []) false []
    reached rfl (askedConn_asked store allKeys) allKeys_wellFormed allKeys_accepted).mpr ?_
  rintro ⟨large, _⟩
  rw [size] at large
  exact absurd large (by decide)

end Menoetius
