import Menoetius.Connection
import Menoetius.StorageInit

/-
This file follows put and get requests from the client to the storage and back.
-/

namespace Menoetius
open LittleEndian HasStream

/-- The keys of a get request. -/
def getKeys (keys : List (List UInt8)) : List UInt8 := keys.flatMap prefixed

/-- A get request behind its code. -/
def getRequest (keys : List (List UInt8)) : List UInt8 := bytesOf 2 keys.length ++ getKeys keys

/-- The group of a key in the response to a get request. -/
def getGroup (points : List Point) : List UInt8 := bytesOf 4 points.length ++ pointsBytes points

/-- The keys are copied with their lengths. Each copy needs room for eight more bytes than the key has. -/
def KeysFit (keys : List (List UInt8)) : Prop := (getKeys keys).length + 6 < maxKeyBuf

section
variable {σ : Type} (calls : StorageCalls σ)

/-- The groups of the keys are what `storage_get` returned. A read that fails ends the reads. -/
inductive GetReplies : σ → List (List UInt8) → List (List Point) → Nat → σ → Prop where
  | nil (storage : σ) : GetReplies storage [] [] 0 storage
  | found {storage middle after : σ} {key : List UInt8} {keys : List (List UInt8)} {points : List Point}
      {groups : List (List Point)} {status : Nat}
      (get : calls.storageGet key maxPtsPerSeries storage = .ok points middle)
      (rest : GetReplies middle keys groups status after) :
      GetReplies storage (key :: keys) (points :: groups) status after
  | unknown {storage middle after : σ} {key : List UInt8} {keys : List (List UInt8)} {groups : List (List Point)}
      {status : Nat} (get : calls.storageGet key maxPtsPerSeries storage = .error (.code .lookupFailed) middle)
      (rest : GetReplies middle keys groups status after) :
      GetReplies storage (key :: keys) ([] :: groups) status after
  | failed {storage after : σ} {key : List UInt8} {err : Err} (keys : List (List UInt8))
      (get : calls.storageGet key maxPtsPerSeries storage = .error (.code err) after) (other : err ≠ .lookupFailed) :
      GetReplies storage (key :: keys) ([] :: keys.map fun _ => []) statusUnknownError after

/-- There is one group for each key. -/
theorem GetReplies.length {storage after : σ} {keys : List (List UInt8)} {groups : List (List Point)} {status : Nat}
    (replies : GetReplies calls storage keys groups status after) : groups.length = keys.length := by
  induction replies with
  | nil => rfl
  | found _ _ ih => rw [List.length_cons, List.length_cons, ih]
  | unknown _ _ ih => rw [List.length_cons, List.length_cons, ih]
  | failed keys => rw [List.length_cons, List.length_cons, List.length_map]

end

section
variable {readSize writeSize : Nat}

theorem exchanges_getKeys (keys : List (List UInt8)) (short : ∀ key ∈ keys, key.length < 2 ^ 16)
    (fits : 2 ^ 16 + 1 ≤ readSize) (copied : List UInt8) (room : copied.length + (getKeys keys).length + 6 < maxKeyBuf) :
    Exchanges readSize writeSize (handleConnGetKeys keys.length 0 copied) (getKeys keys) []
      (0, copied ++ getKeys keys) := by
  induction keys generalizing copied with
  | nil =>
      rw [getKeys, List.flatMap_nil, List.append_nil]
      exact exchanges_pure _
  | cons key keys ih =>
      obtain ⟨small, others⟩ := List.forall_mem_cons.mp short
      have split : getKeys (key :: keys) = prefixed key ++ getKeys keys := List.flatMap_cons
      rw [split, List.length_append, prefixed_length] at room
      rw [split]
      refine (exchanges_readPrefixed (by omega) (by omega)).bind ?_
      rw [if_neg (by omega)]
      have rest := ih others (copied ++ prefixed key) (by rw [List.length_append, prefixed_length]; omega)
      rw [List.append_assoc] at rest
      exact rest

theorem pointsBytes_cons (point : Point) (rest : List Point) :
    pointsBytes (point :: rest) = bytesOf 8 point.1.toNat ++ (bytesOf 8 point.2.toNat ++ pointsBytes rest) := by
  rw [pointsBytes, List.flatMap_cons, pointBytes, List.append_assoc]
  rfl

theorem exchanges_getPoints (points : List Point) (room : 8 ≤ writeSize) :
    Exchanges readSize writeSize (handleConnGetPoints points) [] (pointsBytes points) () := by
  induction points with
  | nil => exact exchanges_pure ()
  | cons point rest ih =>
      rw [pointsBytes_cons]
      exact (exchanges_writeUint _ room).bind ((exchanges_writeUint _ room).bind ih)

theorem exchanges_getGroup (points : List Point) (room : 8 ≤ writeSize) :
    Exchanges readSize writeSize (handleConnGetGroup points) [] (getGroup points) () :=
  (exchanges_writeUint _ (by omega)).bind (exchanges_getPoints points room)

end

section
variable {σ : Type} (calls : StorageCalls σ)

/-- Behind a failed read all groups are empty. -/
theorem exchanges_getAnswers_failed {readSize writeSize : Nat} (room : 8 ≤ writeSize) (keys : List (List UInt8))
    (bytes : List UInt8) {status : Nat} (failed : status ≠ 0) :
    Exchanges readSize writeSize (handleConnGetAnswers calls keys.length status bytes) []
      ((keys.map fun _ => []).flatMap getGroup) status := by
  induction keys with
  | nil => exact exchanges_pure status
  | cons key keys ih =>
      have step : handleConnGetAnswers calls (key :: keys).length status bytes =
          (do onStream (structuredStreamWriteUint32 0)
              handleConnGetAnswers calls keys.length status bytes) := if_pos failed
      rw [List.map_cons, List.flatMap_cons, step]
      exact (exchanges_writeUint 0 (by omega)).on.bind ih

/-- The next key is read from the copies. -/
theorem handleConnGetAnswers_cons {numKeys : Nat} {key rest : List UInt8} (small : key.length < 2 ^ 16) (data : Conn σ) :
    handleConnGetAnswers calls (numKeys + 1) 0 (prefixed key ++ rest) data =
      match calls.storageGet key maxPtsPerSeries data.storage with
      | .ok points storage =>
          (do onStream (handleConnGetGroup points)
              handleConnGetAnswers calls numKeys 0 rest : ConnM σ Nat) { data with storage }
      | .error (.code err) storage =>
          (do onStream (structuredStreamWriteUint32 0)
              handleConnGetAnswers calls numKeys (if err = .lookupFailed then 0 else statusUnknownError) rest :
            ConnM σ Nat) { data with storage }
      | .error (.abort site) storage => .error (.abort site) { data with storage } := by
  have number : valueOf ((prefixed key ++ rest).take 2) = key.length := by
    rw [prefixed, List.append_assoc, List.take_left' (bytesOf_length 2 _), valueOf_bytesOf_of_lt 2 _ (by omega)]
  have tail : (prefixed key ++ rest).drop 2 = key ++ rest := by
    rw [prefixed, List.append_assoc, List.drop_left' (bytesOf_length 2 _)]
  have first : ((prefixed key ++ rest).drop 2).take (valueOf ((prefixed key ++ rest).take 2)) = key := by
    rw [number, tail, List.take_left]
  have others : ((prefixed key ++ rest).drop 2).drop (valueOf ((prefixed key ++ rest).take 2)) = rest := by
    rw [number, tail, List.drop_left]
  refine (congrFun (if_neg (not_not_intro rfl)) data).trans ?_
  exact first.symm ▸ others.symm ▸ rfl

/-- The response has one group for each key, or the server stops inside `storage_get`. -/
theorem handleConnGetAnswers_run (keys : List (List UInt8)) (short : ∀ key ∈ keys, key.length < 2 ^ 16) :
    ∀ data : Conn σ, data.ss.Valid → 8 ≤ data.ss.writeBufSize →
      (∃ groups status storage ss, GetReplies calls data.storage keys groups status storage ∧
        handleConnGetAnswers calls keys.length 0 (getKeys keys) data = .ok status { data with ss, storage } ∧
        data.ss.Moved ss [] (groups.flatMap getGroup)) ∨
      ∃ site after, handleConnGetAnswers calls keys.length 0 (getKeys keys) data = .error (.abort site) after ∧
        ∃ key ∈ keys, ∃ storage stopped,
          calls.storageGet key maxPtsPerSeries storage = .error (.abort site) stopped := by
  induction keys with
  | nil =>
      intro data valid _
      exact .inl ⟨[], 0, data.storage, data.ss, .nil _, rfl, .refl valid⟩
  | cons key keys ih =>
      obtain ⟨small, others⟩ := List.forall_mem_cons.mp short
      intro data valid room
      have split : getKeys (key :: keys) = prefixed key ++ getKeys keys := List.flatMap_cons
      rw [split, List.length_cons, handleConnGetAnswers_cons calls small]
      cases got : calls.storageGet key maxPtsPerSeries data.storage with
      | ok points middle =>
          dsimp only
          obtain ⟨ss, run, moved⟩ := (@exchanges_getGroup 0 8 points le_rfl).on (S := Conn σ)
            { data with storage := middle } valid (Nat.zero_le _) room List.nil_prefix
          have moved : data.ss.Moved ss [] (getGroup points) := moved
          rw [EStateM.bind_ok run]
          rcases ih others (withStream { data with storage := middle } ss) moved.valid (moved.writeBufSize ▸ room) with
            ⟨groups, status, storage, final, replies, again, further⟩ | ⟨site, after, stops, other, mem, rest⟩
          · exact .inl ⟨points :: groups, status, storage, final, .found got replies, again, moved.trans further⟩
          · exact .inr ⟨site, after, stops, other, List.mem_cons_of_mem _ mem, rest⟩
      | error failure middle =>
          cases failure with
          | abort site => exact .inr ⟨site, _, rfl, key, List.mem_cons_self, _, _, got⟩
          | code err =>
              dsimp only
              have empty : Exchanges 0 8 (onStream (structuredStreamWriteUint32 0) : ConnM σ Unit) [] (getGroup []) () :=
                (exchanges_writeUint 0 (by decide)).on
              obtain ⟨ss, run, moved⟩ := empty { data with storage := middle } valid (Nat.zero_le _) room List.nil_prefix
              have moved : data.ss.Moved ss [] (getGroup []) := moved
              rw [EStateM.bind_ok run]
              by_cases unknown : err = .lookupFailed
              · rw [if_pos unknown]
                subst unknown
                rcases ih others (withStream { data with storage := middle } ss) moved.valid
                  (moved.writeBufSize ▸ room) with
                  ⟨groups, status, storage, final, replies, again, further⟩ | ⟨site, after, stops, other, mem, rest⟩
                · exact .inl ⟨[] :: groups, status, storage, final, .unknown got replies, again, moved.trans further⟩
                · exact .inr ⟨site, after, stops, other, List.mem_cons_of_mem _ mem, rest⟩
              · rw [if_neg unknown]
                obtain ⟨final, again, further⟩ := @exchanges_getAnswers_failed σ calls 0 8 le_rfl keys (getKeys keys)
                  statusUnknownError (by decide) (withStream { data with storage := middle } ss) moved.valid
                  (Nat.zero_le _) (moved.writeBufSize ▸ room) List.nil_prefix
                exact .inl ⟨[] :: keys.map fun _ => [], statusUnknownError, middle, final, .failed keys got unknown,
                  again, moved.trans further⟩

/-- The server answers a get request with the groups of its keys and a status. -/
theorem handleConnGetData_run {data : Conn σ} {keys : List (List UInt8)} (few : keys.length < 2 ^ 16)
    (short : ∀ key ∈ keys, key.length < 2 ^ 16) (fits : KeysFit keys) (valid : data.ss.Valid)
    (read : 2 ^ 16 + 1 ≤ data.ss.readBufSize) (write : 8 ≤ data.ss.writeBufSize)
    (part : getRequest keys <+: data.ss.input) :
    (∃ groups status storage ss, GetReplies calls data.storage keys groups status storage ∧
      handleConnGetData calls data = .ok () { data with ss, storage } ∧
      data.ss.Moved ss (getRequest keys) (groups.flatMap getGroup ++ bytesOf 1 (statusOf data status)) ∧
      ss.written = []) ∨
    ∃ site after, handleConnGetData calls data = .error (.abort site) after ∧
      ∃ key ∈ keys, ∃ storage stopped,
        calls.storageGet key maxPtsPerSeries storage = .error (.abort site) stopped := by
  have count : Exchanges (2 ^ 16 + 1) 8 (onStream structuredStreamReadUint16 : ConnM σ Nat)
      (bytesOf 2 keys.length) [] keys.length := (exchanges_readUint (by decide) (by omega)).on
  obtain ⟨first, counted, moved⟩ := count data valid read write ((List.prefix_append _ _).trans part)
  have moved : data.ss.Moved first (bytesOf 2 keys.length) [] := moved
  have remains : getKeys keys <+: first.input := by
    rw [moved.input] at part
    exact (List.prefix_append_right_inj _).mp part
  have copies : Exchanges (2 ^ 16 + 1) 8 (onStream (handleConnGetKeys keys.length 0 []) : ConnM σ _)
      (getKeys keys) [] (0, getKeys keys) :=
    (exchanges_getKeys keys short le_rfl [] (by rw [List.length_nil, Nat.zero_add]; exact fits)).on
  obtain ⟨second, copied, moved'⟩ := copies (withStream data first) moved.valid (moved.readBufSize ▸ read)
    (moved.writeBufSize ▸ write) remains
  have moved' : first.Moved second (getKeys keys) [] := moved'
  have taken := moved.trans moved'
  unfold handleConnGetData
  rw [EStateM.bind_ok counted, EStateM.bind_ok copied]
  dsimp only
  rcases handleConnGetAnswers_run calls keys short (withStream (withStream data first) second) taken.valid
    (taken.writeBufSize ▸ write) with
    ⟨groups, status, storage, third, replies, answered, added⟩ | ⟨site, after, stops, rest⟩
  · have added : second.Moved third [] (groups.flatMap getGroup) := added
    have both := taken.trans added
    obtain ⟨fourth, wrote, moved3⟩ := @exchanges_writeUint 0 8 1 (statusOf data status) (by decide) third both.valid
      (Nat.zero_le _) (both.writeBufSize ▸ write) List.nil_prefix
    obtain ⟨flushed, sent, moved4, none⟩ := structuredStreamFlush_run moved3.valid
    refine .inl ⟨groups, status, storage, flushed, replies, ?_, ?_, none⟩
    · rw [EStateM.bind_ok answered, EStateM.bind_ok (EStateM.get_apply _)]
      exact (EStateM.bind_ok (onStream_ok wrote) _).trans (onStream_ok sent)
    · have all := (both.trans moved3).trans moved4
      simpa [getRequest] using all
  · refine .inr ⟨site, after, ?_, rest⟩
    exact EStateM.bind_error stops _

end

section
variable {readSize writeSize : Nat}

theorem exchanges_writePoints (points : List Point) (room : 8 ≤ writeSize) :
    Exchanges readSize writeSize (writePoints points) [] (pointsBytes points) () := by
  induction points with
  | nil => exact exchanges_pure ()
  | cons point rest ih =>
      rw [pointsBytes_cons]
      exact (exchanges_writeUint _ room).bind ((exchanges_writeUint _ room).bind ih)

theorem exchanges_readPoints (points : List Point) (room : 8 ≤ readSize) :
    Exchanges readSize writeSize (readPoints points.length) (pointsBytes points) [] points := by
  induction points with
  | nil => exact exchanges_pure []
  | cons point rest ih =>
      have rest : Exchanges readSize writeSize (readPoints rest.length >>= fun rest => pure ((point.1, point.2) :: rest))
          (pointsBytes rest ++ []) [] (point :: rest) := ih.bind (exchanges_pure _)
      rw [List.append_nil] at rest
      rw [pointsBytes_cons]
      exact (exchanges_readWord point.1 room).bind ((exchanges_readWord point.2 room).bind rest)

end

/-- The client ignores the flag of an old configuration. -/
theorem serverResponse_statusOf {σ : Type} (data : Conn σ) {code : Nat} (small : code < 128) :
    serverResponse (statusOf data code) = code ∧ statusOf data code < 256 := by
  have low : code &&& 0x7f = code := (Nat.and_two_pow_sub_one_eq_mod code 7).trans (Nat.mod_eq_of_lt small)
  unfold serverResponse statusOf clusterConfigOutOfDate
  split
  · exact ⟨low, by omega⟩
  · refine ⟨?_, @Nat.or_lt_two_pow code 0x80 8 (small.trans (by decide)) (by decide)⟩
    rw [Nat.and_or_distrib_right, low]
    exact Nat.or_zero code

section
variable {σ : Type} (server : Server σ) (now : Int)

theorem exchanges_readResponse (data : Conn σ) {code : Nat} (small : code < 128) :
    Exchanges clientBufSize 0 (readResponse : SystemM σ Nat) (bytesOf 1 (statusOf data code)) [] code := by
  obtain ⟨response, fits⟩ := serverResponse_statusOf data small
  have number : Exchanges clientBufSize 0 (onStream structuredStreamReadUint8 : SystemM σ Nat)
      (bytesOf 1 (statusOf data code)) [] (statusOf data code) := (exchanges_readUint (by decide) fits).on
  have both : Exchanges clientBufSize 0 (readResponse : SystemM σ Nat) (bytesOf 1 (statusOf data code) ++ []) []
      (serverResponse (statusOf data code)) := number.bind (exchanges_pure _)
  rw [response, List.append_nil] at both
  exact both

/-- The request of `menoetius_client_send_sync`. -/
def sendSyncRequest (key : List UInt8) (points : List Point) : SystemM σ Unit := do
  orShutdown server now (onStream (structuredStreamWriteUint8 rpcPutData))
  orShutdown server now (onStream (structuredStreamWriteUint16PrefixedBytes key))
  orShutdown server now (onStream (structuredStreamWriteUint32 points.length))
  onStream (writePoints points)
  onStream (structuredStreamWriteUint16PrefixedBytes [])

theorem menoetiusClientSendSync_eq (key : List UInt8) (points : List Point) :
    menoetiusClientSendSync server now key points =
      clientCall server now (sendSyncRequest server now key points) readResponse := by
  unfold menoetiusClientSendSync clientCall sendSyncRequest
  simp only [bind_assoc]

theorem exchanges_sendSync {key : List UInt8} (valid : ValidKey key) (points : List Point) :
    Exchanges 0 clientBufSize (sendSyncRequest server now key points) []
      (bytesOf 1 rpcPutData ++ putRequest [(key, points)]) () := by
  obtain ⟨_, short⟩ := valid
  unfold maxLfmSize at short
  have bytes : bytesOf 1 rpcPutData ++ putRequest [(key, points)] =
      bytesOf 1 rpcPutData ++ (prefixed key ++ (bytesOf 4 points.length ++ (pointsBytes points ++ prefixed []))) := by
    rw [putRequest, List.flatMap_singleton, putEntry]
    simp only [List.append_assoc]
  rw [bytes]
  refine ((exchanges_writeUint _ (by decide)).on.orShutdown server now).bind ?_
  refine ((exchanges_writePrefixed (by omega) short (by decide)).on.orShutdown server now).bind ?_
  refine ((exchanges_writeUint _ (by decide)).on.orShutdown server now).bind ?_
  refine (exchanges_writePoints points (by decide)).on.bind ?_
  exact (exchanges_writePrefixed (by decide) (by decide) (by decide)).on

/-- A put request reaches the storage, and its status reaches the client. -/
theorem menoetiusClientSendSync_run {sys : System σ} (idle : sys.Idle) {key : List UInt8} (valid : ValidKey key)
    {points : List Point} (few : points.length < 2 ^ 32) :
    (∀ storage, writeBatch server.calls (now - server.calls.retentionSeconds) [(key, points)] sys.conn.storage =
      .ok () storage →
        ∃ after, menoetiusClientSendSync server now key points sys = .ok 0 after ∧ after.Answered [] ∧
          System.SameStore { sys.conn with storage } after.conn ∧ sys.SameClient after) ∧
    ∀ site storage, writeBatch server.calls (now - server.calls.retentionSeconds) [(key, points)] sys.conn.storage =
      .error (.abort site) storage →
        ∃ after, menoetiusClientSendSync server now key points sys = .error (.abort site) after := by
  obtain ⟨data, same, serving, good, stops⟩ := clientCall_run server now idle
    (exchanges_sendSync server now valid points) (by decide) readResponse
  have batch : ValidBatch [(key, points)] := by
    intro entry mem
    rw [List.mem_singleton.mp mem]
    exact ⟨valid, few⟩
  obtain ⟨put, fails⟩ := handleConnPutData_run server.calls now batch serving.valid
    ((by decide : maxLfmSize + 2 ≤ connBufSize).trans serving.read) ((by decide : 5 ≤ connBufSize).trans serving.write)
    ⟨[], by rw [serving.input, List.append_nil]⟩
  rw [menoetiusClientSendSync_eq]
  rw [same.storage] at put fails
  refine ⟨fun storage done => ?_, fun site storage failed => ?_⟩
  · obtain ⟨ss, run, moved, flushed⟩ := put storage done
    obtain ⟨middle, call, answered, sameStore, sameClient⟩ := good _ _ run moved flushed
    rw [← List.append_nil (bytesOf 1 _)] at answered
    obtain ⟨final, response, done⟩ := answered.receive (exchanges_readResponse data (by decide))
    refine ⟨_, call.trans response, done, ⟨sameStore.storage, ?_, ?_⟩,
      sameClient.trans (System.sameClient_withStream middle final)⟩
    · exact sameStore.clusterConfig.trans same.clusterConfig
    · exact sameStore.clusterConfigHash.trans same.clusterConfigHash
  · obtain ⟨after, run⟩ := fails _ storage failed
    exact stops site after run

/-- The request of `menoetius_client_get`. -/
def clientGetRequest (key : List UInt8) : SystemM σ Unit := do
  orShutdown server now (onStream (structuredStreamWriteUint8 rpcGetData))
  orShutdown server now (onStream (structuredStreamWriteUint16 1))
  orShutdown server now (onStream (structuredStreamWriteUint16PrefixedBytes key))

/-- The response of `menoetius_client_get`. -/
def clientGetResponse (maxNumPts : Nat) : SystemM σ (Nat × List Point) :=
  orShutdown server now do
    let numPtsServer ← onStream structuredStreamReadUint32
    if maxNumPts < numPtsServer then throw (.code (.res 1))
    else do
      let points ← onStream (readPoints numPtsServer)
      let response ← readResponse
      pure (response, points)

theorem menoetiusClientGet_eq (key : List UInt8) (maxNumPts : Nat) :
    menoetiusClientGet server now key maxNumPts =
      clientCall server now (clientGetRequest server now key) (clientGetResponse server now maxNumPts) := by
  unfold menoetiusClientGet clientCall clientGetRequest clientGetResponse
  simp only [bind_assoc]

theorem exchanges_clientGet {key : List UInt8} (short : key.length ≤ maxLfmSize) :
    Exchanges 0 clientBufSize (clientGetRequest server now key) [] (bytesOf 1 rpcGetData ++ getRequest [key]) () := by
  unfold maxLfmSize at short
  have bytes : getRequest [key] = bytesOf 2 1 ++ prefixed key := by
    rw [getRequest, getKeys, List.flatMap_singleton]
    rfl
  rw [bytes]
  refine ((exchanges_writeUint _ (by decide)).on.orShutdown server now).bind ?_
  refine ((exchanges_writeUint _ (by decide)).on.orShutdown server now).bind ?_
  exact (exchanges_writePrefixed (by omega) short (by decide)).on.orShutdown server now

/-- The client reads the group of its key and the status. -/
theorem exchanges_clientGetResponse (data : Conn σ) {points : List Point} {status maxNumPts : Nat}
    (small : status < 128) (few : points.length < 2 ^ 32) (fits : points.length ≤ maxNumPts) :
    Exchanges clientBufSize 0 (clientGetResponse server now maxNumPts) (getGroup points ++ bytesOf 1 (statusOf data status))
      [] (status, points) := by
  have bytes : getGroup points ++ bytesOf 1 (statusOf data status) =
      bytesOf 4 points.length ++ (pointsBytes points ++ (bytesOf 1 (statusOf data status) ++ [])) := by
    rw [getGroup, List.append_nil, List.append_assoc]
  rw [bytes]
  refine Exchanges.orShutdown server now ?_
  refine (exchanges_readUint (by decide) (by omega)).on.bind ?_
  rw [if_neg (by omega)]
  refine (exchanges_readPoints points (by decide)).on.bind ?_
  exact (exchanges_readResponse data small).bind (exchanges_pure _)

/-- The result of a get request is what `storage_get` returned, or the server stops inside `storage_get`. -/
theorem menoetiusClientGet_run {sys : System σ} (idle : sys.Idle) {key : List UInt8} (short : key.length ≤ maxLfmSize)
    (maxNumPts : Nat) :
    (∃ points status storage, GetReplies server.calls sys.conn.storage [key] [points] status storage ∧
      ∃ (data : Conn σ) (middle : System σ), middle.Answered (getGroup points ++ bytesOf 1 (statusOf data status)) ∧
        menoetiusClientGet server now key maxNumPts sys = clientGetResponse server now maxNumPts middle ∧
        System.SameStore { sys.conn with storage } middle.conn ∧ sys.SameClient middle) ∨
    ∃ site after, menoetiusClientGet server now key maxNumPts sys = .error (.abort site) after ∧
      ∃ storage stopped, server.calls.storageGet key maxPtsPerSeries storage = .error (.abort site) stopped := by
  obtain ⟨data, same, serving, good, stops⟩ := clientCall_run server now idle
    (exchanges_clientGet server now short) (by decide) (clientGetResponse server now maxNumPts)
  unfold maxLfmSize at short
  have fits : KeysFit [key] := by
    unfold KeysFit getKeys maxKeyBuf
    rw [List.flatMap_singleton, prefixed_length]
    omega
  rw [menoetiusClientGet_eq]
  rcases handleConnGetData_run server.calls (show [key].length < 2 ^ 16 from (by decide : 1 < 2 ^ 16)) (List.forall_mem_singleton.mpr (by omega))
    fits serving.valid ((by decide : 2 ^ 16 + 1 ≤ connBufSize).trans serving.read)
    ((by decide : 8 ≤ connBufSize).trans serving.write) ⟨[], by rw [serving.input, List.append_nil]⟩ with
    ⟨groups, status, storage, ss, replies, run, moved, flushed⟩ | ⟨site, after, run, _, mem, storage, stopped, get⟩
  · obtain ⟨points, rfl⟩ := List.length_eq_one_iff.mp (replies.length server.calls)
    rw [List.flatMap_singleton] at moved
    rw [same.storage] at replies
    obtain ⟨middle, call, answered, sameStore, sameClient⟩ := good _ _ run moved flushed
    exact .inl ⟨points, status, storage, replies, data, middle, answered, call,
      ⟨sameStore.storage, sameStore.clusterConfig.trans same.clusterConfig,
        sameStore.clusterConfigHash.trans same.clusterConfigHash⟩, sameClient⟩
  · obtain ⟨final, stops⟩ := stops site after run
    rw [List.mem_singleton.mp mem] at get
    exact .inr ⟨site, final, stops, storage, stopped, get⟩

/-- The calls of `storage_write` for the points of a key that are not too old. -/
def recentWrites (calls : StorageCalls σ) (earliestTime : Int) (key : List UInt8) (points : List Point) :
    EStateM Failure σ PUnit :=
  (points.filter fun point => earliestTime ≤ point.1.toInt).forM fun point => do
    let _ ← reported (calls.storageWrite key point)

theorem writePointsTo_eq (calls : StorageCalls σ) (earliestTime : Int) (key : List UInt8) (points : List Point) :
    writePointsTo calls earliestTime key points = recentWrites calls earliestTime key points := by
  induction points with
  | nil => rfl
  | cons point rest ih =>
      unfold writePointsTo writePointTo
      rw [ih]
      by_cases old : point.1.toInt < earliestTime
      · rw [if_pos old, recentWrites, recentWrites, List.filter_cons_of_neg (by simpa using old), pure_bind]
      · rw [if_neg old, recentWrites, recentWrites, List.filter_cons_of_pos (by simpa using old)]
        rfl

theorem writeBatch_single (calls : StorageCalls σ) (earliestTime : Int) (key : List UInt8) (points : List Point) :
    writeBatch calls earliestTime [(key, points)] = recentWrites calls earliestTime key points := by
  rw [← writePointsTo_eq]
  exact bind_pure _

theorem GetReplies.status_small {calls : StorageCalls σ} {storage after : σ} {keys : List (List UInt8)}
    {groups : List (List Point)} {status : Nat} (replies : GetReplies calls storage keys groups status after) :
    status < 128 := by
  induction replies with
  | nil => decide
  | found _ _ ih => exact ih
  | unknown _ _ ih => exact ih
  | failed => decide

theorem GetReplies.bounded {calls : StorageCalls σ}
    (bounded : ∀ key maxNumPts storage points after,
      calls.storageGet key maxNumPts storage = .ok points after → points.length ≤ maxNumPts)
    {storage after : σ} {keys : List (List UInt8)} {groups : List (List Point)} {status : Nat}
    (replies : GetReplies calls storage keys groups status after) :
    ∀ points ∈ groups, points.length ≤ maxPtsPerSeries := by
  induction replies with
  | nil => exact fun _ mem => absurd mem List.not_mem_nil
  | found get _ ih => exact List.forall_mem_cons.mpr ⟨bounded _ _ _ _ _ get, ih⟩
  | unknown _ _ ih => exact List.forall_mem_cons.mpr ⟨Nat.zero_le _, ih⟩
  | failed keys =>
      refine List.forall_mem_cons.mpr ⟨Nat.zero_le _, fun points mem => ?_⟩
      obtain ⟨_, _, rfl⟩ := List.mem_map.mp mem
      exact Nat.zero_le _

/-- Points and keys cross the connection unchanged, in both directions. -/
theorem wire_faithful
    (bounded : ∀ key maxNumPts storage points after,
      server.calls.storageGet key maxNumPts storage = .ok points after → points.length ≤ maxNumPts) :
    (∀ (sys : System σ) (key : List UInt8) (points : List Point), sys.Idle → ValidKey key →
      points.length ≤ maxPtsPerSeries →
        (∀ storage, recentWrites server.calls (now - server.calls.retentionSeconds) key points sys.conn.storage =
          .ok () storage →
            ∃ after, menoetiusClientSendSync server now key points sys = .ok 0 after ∧ after.Answered [] ∧
              after.conn.storage = storage) ∧
        ∀ site storage, recentWrites server.calls (now - server.calls.retentionSeconds) key points sys.conn.storage =
          .error (.abort site) storage →
            ∃ after, menoetiusClientSendSync server now key points sys = .error (.abort site) after) ∧
    (∀ (data : Conn σ) (keys : List (List UInt8)), keys.length < 2 ^ 16 → (∀ key ∈ keys, key.length < 2 ^ 16) →
      KeysFit keys → data.ss.Serving (getRequest keys) →
        (∃ groups status storage ss, GetReplies server.calls data.storage keys groups status storage ∧
          handleConnGetData server.calls data = .ok () { data with ss, storage } ∧ ss.input = [] ∧
          ss.outgoing = groups.flatMap getGroup ++ bytesOf 1 (statusOf data status)) ∨
        ∃ site after, handleConnGetData server.calls data = .error (.abort site) after ∧
          ∃ key ∈ keys, ∃ storage stopped,
            server.calls.storageGet key maxPtsPerSeries storage = .error (.abort site) stopped) ∧
    ∀ (sys : System σ) (key : List UInt8) (maxNumPts : Nat), sys.Idle → key.length ≤ maxLfmSize →
      (∃ points status storage, GetReplies server.calls sys.conn.storage [key] [points] status storage ∧
        (points.length ≤ maxNumPts →
          ∃ after, menoetiusClientGet server now key maxNumPts sys = .ok (status, points) after ∧ after.Answered [] ∧
            after.conn.storage = storage)) ∨
      ∃ site after, menoetiusClientGet server now key maxNumPts sys = .error (.abort site) after ∧
        ∃ storage stopped, server.calls.storageGet key maxPtsPerSeries storage = .error (.abort site) stopped := by
  refine ⟨fun sys key points idle valid few => ?_, fun data keys few short fits serving => ?_,
    fun sys key maxNumPts idle short => ?_⟩
  · unfold maxPtsPerSeries at few
    obtain ⟨good, bad⟩ := menoetiusClientSendSync_run server now idle valid (show points.length < 2 ^ 32 by omega)
    rw [writeBatch_single] at good bad
    refine ⟨fun storage done => ?_, bad⟩
    obtain ⟨after, run, answered, same, _⟩ := good storage done
    exact ⟨after, run, answered, same.storage⟩
  · rcases handleConnGetData_run server.calls few short fits serving.valid
      ((by decide : 2 ^ 16 + 1 ≤ connBufSize).trans serving.read) ((by decide : 8 ≤ connBufSize).trans serving.write)
      ⟨[], by rw [serving.input, List.append_nil]⟩ with ⟨groups, status, storage, ss, replies, run, moved, flushed⟩ | stops
    · exact .inl ⟨groups, status, storage, ss, replies, run, serving.done moved flushed⟩
    · exact .inr stops
  · rcases menoetiusClientGet_run server now idle short maxNumPts with
      ⟨points, status, storage, replies, data, middle, answered, run, same, _⟩ | stops
    · refine .inl ⟨points, status, storage, replies, fun fits => ?_⟩
      have few := replies.bounded bounded points List.mem_cons_self
      unfold maxPtsPerSeries at few
      rw [← List.append_nil (getGroup points ++ _)] at answered
      obtain ⟨ss, received, done⟩ := answered.receive (exchanges_clientGetResponse server now data replies.status_small
        (show points.length < 2 ^ 32 by omega) fits)
      exact ⟨_, run.trans received, done, same.storage⟩
    · exact .inr stops

end

/-- The calls of a storage without queries. -/
def storageCalls : StorageCalls Storage where
  storageWrite := fun key point => Written.err <$> storageWrite key [point]
  storageGet := storageGet
  storageLookup := fun _ _ _ _ _ _ _ => throw (.code .badIndex)
  storageLookupWithoutIndex := fun _ _ _ _ _ => throw (.code .badIndex)
  indices := []
  retentionSeconds := 10
  sha1 := id

/-- A client before its first call, with buffers of the default sizes. -/
def newSystem {σ : Type} (storage : σ) : System σ where
  client := menoetiusClientInit fun _ => 0
  conn :=
    { ss := structuredStreamNew connBufSize connBufSize fun _ => 0, hasValidConfig := false, storage,
      clusterConfig := none, clusterConfigHash := [] }
  greeted := false
  closed := false

theorem newSystem_idle {σ : Type} (storage : σ) : (newSystem storage).Idle :=
  ⟨⟨le_rfl, le_rfl, le_rfl, le_rfl⟩, fun connected => nomatch connected⟩

/-- A new storage takes a point. -/
theorem recentWrites_first :
    ∃ store stored, storageInit 10 28 (fun _ _ => 0) newStorage = .ok () store ∧
      storageWrite [97] [(5#64, 7#64)] store = .ok ⟨[(5#64, 7#64)], none⟩ stored ∧
      recentWrites storageCalls (12 - 10) [97] [(5#64, 7#64)] store = .ok () stored := by
  have passed : (((storageInit 10 28 fun _ _ => 0) >>= fun _ => storageWrite [97] [(5#64, 7#64)]) newStorage).passes
      (fun written _ => written = ⟨[(5#64, 7#64)], none⟩) = true := by
    decide +kernel
  obtain ⟨written, stored, run, same⟩ := EStateM.Result.of_passes passed
  obtain ⟨_, store, opened, run⟩ := EStateM.of_bind_ok run
  rw [of_decide_eq_true same] at run
  have call : reported (storageCalls.storageWrite [97] (5#64, 7#64)) store = .ok none stored := by
    have call : storageCalls.storageWrite [97] (5#64, 7#64) store = .ok none stored := by
      change (Written.err <$> storageWrite [97] [(5#64, 7#64)]) store = _
      rw [EStateM.map_apply, run]
    rw [reported, call]
  have step : (do let _ ← reported (storageCalls.storageWrite [97] (5#64, 7#64)) : StorageM PUnit) store = .ok () stored :=
    EStateM.bind_ok call _
  exact ⟨store, stored, opened, run, EStateM.bind_ok step fun _ => (pure ⟨⟩ : StorageM PUnit)⟩

/-- A client sends a point to a new storage. -/
theorem wire_faithful_sent :
    ∃ store stored after, storageInit 10 28 (fun _ _ => 0) newStorage = .ok () store ∧
      storageWrite [97] [(5#64, 7#64)] store = .ok ⟨[(5#64, 7#64)], none⟩ stored ∧
      menoetiusClientSendSync ⟨storageCalls, [], []⟩ 12 [97] [(5#64, 7#64)] (newSystem store) = .ok 0 after ∧
      after.conn.storage = stored := by
  obtain ⟨store, stored, opened, run, writes⟩ := recentWrites_first
  obtain ⟨after, sent, _, final⟩ := ((wire_faithful ⟨storageCalls, [], []⟩ 12 fun _ _ _ _ _ => storageGet_length_le).1
    (newSystem store) [97] [(5#64, 7#64)] (newSystem_idle store) ⟨by decide, by decide⟩ (by decide)).1 stored writes
  exact ⟨store, stored, after, opened, run, sent, final⟩

end Menoetius
