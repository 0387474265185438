import Menoetius.WireGet

/-
This file compares points that are queued and flushed with points that are sent at once.
-/

namespace Menoetius
open LittleEndian HasStream

/-- The bytes of the queue. -/
def queueBytes (batch : List (List UInt8 × List Point)) : List UInt8 :=
  batch.flatMap fun entry => putEntry entry.1 entry.2

/-- Each key takes at least seven bytes of the queue. -/
theorem queueBytes_length_ge {batch : List (List UInt8 × List Point)} (valid : ∀ entry ∈ batch, ValidKey entry.1) :
    7 * batch.length ≤ (queueBytes batch).length := by
  induction batch with
  | nil => exact Nat.zero_le _
  | cons entry rest ih =>
      obtain ⟨⟨nonempty, _⟩, others⟩ := List.forall_mem_cons.mp valid
      have positive : 0 < entry.1.length := by omega
      have split : (queueBytes (entry :: rest)).length = (putEntry entry.1 entry.2).length + (queueBytes rest).length := by
        rw [queueBytes, List.flatMap_cons, List.length_append]
        rfl
      have some : 7 ≤ (putEntry entry.1 entry.2).length := by
        rw [putEntry, List.length_append, prefixed_length, List.length_append, bytesOf_length]
        omega
      have more := ih others
      rw [split, List.length_cons]
      omega

/-- The counts of a short queue fit their fields. -/
theorem validBatch_of_short {batch : List (List UInt8 × List Point)} (valid : ∀ entry ∈ batch, ValidKey entry.1)
    (short : (queueBytes batch).length ≤ clientBufSize) : ValidBatch batch := by
  intro entry mem
  refine ⟨valid entry mem, ?_⟩
  have queued : putEntry entry.1 entry.2 ∈ batch.map fun entry => putEntry entry.1 entry.2 :=
    List.mem_map.mpr ⟨entry, mem, rfl⟩
  have part : (putEntry entry.1 entry.2).length ≤ (queueBytes batch).length := by
    rw [queueBytes, List.flatMap_def]
    exact (List.sublist_flatten_of_mem queued).length_le
  have long : entry.2.length ≤ (pointsBytes entry.2).length := by
    rw [pointsBytes, List.length_flatMap]
    simp only [pointBytes_length, List.map_const', List.sum_replicate, smul_eq_mul]
    omega
  rw [putEntry, List.length_append, List.length_append] at part
  unfold clientBufSize at short
  omega

section
variable {σ : Type} (server : Server σ) (now : Int)

theorem orShutdown_error {α : Type} {action : SystemM σ α} {sys after : System σ} {err : Err}
    (run : action sys = .error (.code err) after) :
    ∃ failure final, orShutdown server now action sys = .error failure final := by
  unfold orShutdown
  rw [run]
  dsimp only
  cases menoetiusClientShutdown server now after with
  | ok _ final => exact ⟨_, _, rfl⟩
  | error failure final => exact ⟨_, _, rfl⟩

/-- The request of `menoetius_client_flush`. -/
def flushRequest (queue : List UInt8) : SystemM σ Unit := do
  orShutdown server now (onStream (structuredStreamWriteUint8 rpcPutData))
  orShutdown server now (onStream (writeChunks queue.length queue))
  onStream (structuredStreamWriteUint16PrefixedBytes [])

/-- The response of `menoetius_client_flush`. -/
def flushResponse : SystemM σ Nat := do
  let response ← readResponse
  if response = 0 then
    modify fun sys => { sys with client := { sys.client with queuedMetrics := [], numQueuedMetrics := 0 } }
  else pure ()
  pure response

/-- The queue is not changed before it is sent. -/
theorem menoetiusClientFlush_eq {sys : System σ} (idle : sys.Idle) :
    menoetiusClientFlush server now sys =
      clientCall server now (flushRequest server now sys.client.queuedMetrics) flushResponse sys := by
  obtain ⟨ready, connects, isReady, _, same⟩ := menoetiusClientEnsureConnected_run server now idle
  have code : Exchanges 0 clientBufSize (orShutdown server now (onStream (structuredStreamWriteUint8 rpcPutData))) []
      (bytesOf 1 rpcPutData) () := (exchanges_writeUint _ (by decide)).on.orShutdown server now
  obtain ⟨ss, wrote, _⟩ := code ready isReady.client (Nat.zero_le _) (isReady.sized.write.trans isReady.write.ge)
    List.nil_prefix
  unfold menoetiusClientFlush clientCall flushRequest
  simp only [bind_assoc]
  rw [EStateM.bind_ok connects, EStateM.bind_ok connects, EStateM.bind_ok wrote, EStateM.bind_ok wrote,
    EStateM.bind_ok (EStateM.get_apply _), ← same.queuedMetrics]
  rfl

theorem writeChunks_cons (byte : UInt8) (rest : List UInt8) :
    writeChunks (byte :: rest).length (byte :: rest) =
      (do structuredStreamWriteBytes ((byte :: rest).take chunkSize)
          writeChunks rest.length ((byte :: rest).drop chunkSize)) := if_neg (List.cons_ne_nil byte rest)

theorem exchanges_writeChunks {queue : List UInt8} (short : queue.length ≤ clientBufSize) :
    Exchanges 0 clientBufSize (writeChunks queue.length queue) [] queue () := by
  cases queue with
  | nil => exact exchanges_pure ()
  | cons byte rest =>
      have whole : (byte :: rest).take chunkSize = byte :: rest :=
        List.take_of_length_le (short.trans (by decide))
      have none : (byte :: rest).drop chunkSize = [] := List.drop_eq_nil_of_le (short.trans (by decide))
      have last : Exchanges 0 clientBufSize (writeChunks rest.length []) [] [] () := by
        cases rest.length with
        | zero => exact exchanges_pure ()
        | succ rounds =>
            unfold writeChunks
            rw [if_pos rfl]
            exact exchanges_pure ()
      have both : Exchanges 0 clientBufSize
          (structuredStreamWriteBytes (byte :: rest) >>= fun _ => writeChunks rest.length []) [] (byte :: rest ++ []) () :=
        (exchanges_writeBytes short).bind last
      rw [List.append_nil] at both
      rw [writeChunks_cons, whole, none]
      exact both

/-- A chunk that does not fit the buffer of the stream is refused. -/
theorem writeChunks_large {queue : List UInt8} {ss : Stream} (size : ss.writeBufSize = clientBufSize)
    (large : clientBufSize < queue.length) :
    writeChunks queue.length queue ss = .error (.code .structuredStreamBufTooSmall) ss := by
  cases queue with
  | nil => cases large
  | cons byte rest =>
      have chunk : clientBufSize < ((byte :: rest).take chunkSize).length := by
        rw [List.length_take]
        exact lt_min (by decide) large
      have refused : structuredStreamWriteBytes ((byte :: rest).take chunkSize) ss =
          .error (.code .structuredStreamBufTooSmall) ss := by
        unfold structuredStreamWriteBytes structuredStreamEnsureWrite
        refine EStateM.bind_error ?_ _
        rw [EStateM.bind_ok (EStateM.get_apply ss), if_neg (by omega), if_pos (by omega)]
        rfl
      rw [writeChunks_cons]
      exact EStateM.bind_error refused _

theorem exchanges_flushRequest {queue : List UInt8} (short : queue.length ≤ clientBufSize) :
    Exchanges 0 clientBufSize (flushRequest server now queue) [] (bytesOf 1 rpcPutData ++ (queue ++ prefixed [])) () := by
  refine ((exchanges_writeUint _ (by decide)).on.orShutdown server now).bind ?_
  refine ((exchanges_writeChunks short).on.orShutdown server now).bind ?_
  exact (exchanges_writePrefixed (by decide) (by decide) (by decide)).on

/-- A queue that does not fit the buffer is not flushed. -/
theorem menoetiusClientFlush_large {sys : System σ} (idle : sys.Idle) (size : sys.client.writeBufSize = clientBufSize)
    (large : clientBufSize < sys.client.queuedMetrics.length) :
    ∃ failure after, menoetiusClientFlush server now sys = .error failure after := by
  obtain ⟨ready, connects, isReady, _, same⟩ := menoetiusClientEnsureConnected_run server now idle
  have code : Exchanges 0 clientBufSize (orShutdown server now (onStream (structuredStreamWriteUint8 rpcPutData))) []
      (bytesOf 1 rpcPutData) () := (exchanges_writeUint _ (by decide)).on.orShutdown server now
  obtain ⟨ss, wrote, moved⟩ := code ready isReady.client (Nat.zero_le _) (isReady.sized.write.trans isReady.write.ge)
    List.nil_prefix
  have bufSize : ss.writeBufSize = clientBufSize :=
    moved.writeBufSize.trans (isReady.write.trans (same.writeBufSize.trans size))
  have refused : onStream (writeChunks sys.client.queuedMetrics.length sys.client.queuedMetrics) (withStream ready ss) =
      .error (.code .structuredStreamBufTooSmall) (withStream ready ss) :=
    onStream_error (writeChunks_large bufSize large)
  obtain ⟨failure, after, stops⟩ := orShutdown_error server now refused
  rw [menoetiusClientFlush_eq server now idle]
  unfold clientCall flushRequest
  simp only [bind_assoc]
  rw [EStateM.bind_ok connects, EStateM.bind_ok wrote, EStateM.bind_error stops]
  exact ⟨failure, after, rfl⟩

/-- A queue that fits the buffer reaches the storage, and is empty afterwards. -/
theorem menoetiusClientFlush_run {sys : System σ} (idle : sys.Idle) {batch : List (List UInt8 × List Point)}
    (valid : ValidBatch batch) (queue : sys.client.queuedMetrics = queueBytes batch)
    (short : (queueBytes batch).length ≤ clientBufSize) {storage : σ}
    (writes : writeBatch server.calls (now - server.calls.retentionSeconds) batch sys.conn.storage = .ok () storage) :
    ∃ after, menoetiusClientFlush server now sys = .ok 0 after ∧ after.client.queuedMetrics = [] ∧
      after.client.numQueuedMetrics = 0 ∧ after.conn.storage = storage := by
  obtain ⟨data, same, serving, good, _⟩ := clientCall_run server now idle
    (exchanges_flushRequest server now short) (by decide) flushResponse
  obtain ⟨put, _⟩ := handleConnPutData_run server.calls now valid serving.valid
    ((by decide : maxLfmSize + 2 ≤ connBufSize).trans serving.read) ((by decide : 5 ≤ connBufSize).trans serving.write)
    ⟨[], by rw [serving.input, List.append_nil]; rfl⟩
  rw [same.storage] at put
  obtain ⟨ss, run, moved, flushed⟩ := put storage writes
  obtain ⟨middle, call, answered, sameStore, _⟩ := good _ _ run moved flushed
  rw [← List.append_nil (bytesOf 1 _)] at answered
  obtain ⟨final, response, _⟩ := answered.receive (exchanges_readResponse data (by decide))
  rw [menoetiusClientFlush_eq server now idle, queue, call]
  unfold flushResponse
  rw [EStateM.bind_ok response, if_pos rfl, EStateM.bind_ok (EStateM.modify_apply _ _)]
  exact ⟨_, rfl, rfl, rfl, sameStore.storage⟩

/-- The client has queued these points and has not connected yet. -/
structure System.Queued (start sys : System σ) (batch : List (List UInt8 × List Point)) : Prop where
  conn : sys.conn = start.conn
  connected : sys.client.connected = false
  readBufSize : sys.client.readBufSize = clientBufSize
  writeBufSize : sys.client.writeBufSize = clientBufSize
  queuedMetrics : sys.client.queuedMetrics = queueBytes batch
  numQueuedMetrics : sys.client.numQueuedMetrics = batch.length
  numQueuedMetricsFlush : sys.client.numQueuedMetricsFlush = 1000

theorem System.Queued.idle {start sys : System σ} {batch : List (List UInt8 × List Point)}
    (queued : start.Queued sys batch) (sized : start.Sized) : sys.Idle := by
  refine ⟨⟨queued.readBufSize.ge, queued.writeBufSize.ge, ?_, ?_⟩, fun connected => ?_⟩
  · rw [queued.conn]
    exact sized.serverRead
  · rw [queued.conn]
    exact sized.serverWrite
  · rw [queued.connected] at connected
    cases connected

/-- A call queues its points. A flush at the limit fails, because the queue is too long then. -/
theorem menoetiusClientSend_cases {start sys : System σ} {batch : List (List UInt8 × List Point)} {key : List UInt8}
    {points : List Point} (sized : start.Sized) (queued : start.Queued sys batch)
    (valid : ∀ entry ∈ batch ++ [(key, points)], ValidKey entry.1) :
    (∃ failure after, menoetiusClientSend server now key points sys = .error failure after ∧
      clientBufSize < (queueBytes (batch ++ [(key, points)])).length) ∨
    ∃ after, menoetiusClientSend server now key points sys = .ok 0 after ∧
      start.Queued after (batch ++ [(key, points)]) := by
  have entry : bytesOf 2 key.length ++ key ++ bytesOf 4 points.length ++ points.flatMap pointBytes =
      putEntry key points := by
    simp only [putEntry, prefixed, pointsBytes, List.append_assoc]
  have total : queueBytes (batch ++ [(key, points)]) = queueBytes batch ++ putEntry key points := by
    rw [queueBytes, List.flatMap_append, List.flatMap_singleton]
    rfl
  have length : (queueBytes batch ++ putEntry key points).length =
      sys.client.queuedMetrics.length + (putEntry key points).length := by
    rw [List.length_append, queued.queuedMetrics]
  unfold menoetiusClientSend
  rw [entry, EStateM.bind_ok (EStateM.get_apply sys)]
  by_cases fits : sys.client.queuedMetrics.length + (putEntry key points).length < 2 ^ 31
  · rw [require_bind fits, EStateM.bind_ok (EStateM.set_apply _ _)]
    generalize grown : ({ sys with
      client := { menoetiusClientGrowQueuedMetrics (putEntry key points).length sys.client with
        queuedMetrics := (menoetiusClientGrowQueuedMetrics (putEntry key points).length sys.client).queuedMetrics ++
          putEntry key points
        numQueuedMetrics := (menoetiusClientGrowQueuedMetrics (putEntry key points).length sys.client).numQueuedMetrics +
          1 } } : System σ) = after
    have next : start.Queued after (batch ++ [(key, points)]) := by
      subst grown
      refine ⟨queued.conn, queued.connected, queued.readBufSize, queued.writeBufSize, ?_, ?_,
        queued.numQueuedMetricsFlush⟩
      · rw [total, ← queued.queuedMetrics]
        rfl
      · rw [List.length_append, ← queued.numQueuedMetrics]
        rfl
    split
    · rename_i limit
      have many : 1000 ≤ (batch ++ [(key, points)]).length := by
        rw [← next.numQueuedMetrics, ← next.numQueuedMetricsFlush, ← grown]
        exact limit
      have large : clientBufSize < (queueBytes (batch ++ [(key, points)])).length := by
        have long := queueBytes_length_ge valid
        unfold clientBufSize
        omega
      obtain ⟨failure, final, stops⟩ := menoetiusClientFlush_large server now (next.idle sized) next.writeBufSize
        (by rw [next.queuedMetrics]; exact large)
      exact .inl ⟨failure, final, stops, large⟩
    · exact .inr ⟨after, rfl, next⟩
  · refine .inl ⟨.abort .memory, sys, EStateM.bind_error ?_ _, ?_⟩
    · rw [require, if_neg fits]
      rfl
    · rw [total, length]
      unfold clientBufSize
      omega

/-- Points are queued, call by call. -/
def sendAll (batch : List (List UInt8 × List Point)) : SystemM σ (List Nat) :=
  batch.mapM fun entry => menoetiusClientSend server now entry.1 entry.2

/-- Points are queued, and then flushed. -/
def sendBatched (batch : List (List UInt8 × List Point)) : SystemM σ (List Nat) := do
  let responses ← sendAll server now batch
  let last ← menoetiusClientFlush server now
  pure (responses ++ [last])

/-- Points are sent at once, call by call. -/
def sendSyncAll (batch : List (List UInt8 × List Point)) : SystemM σ (List Nat) :=
  batch.mapM fun entry => menoetiusClientSendSync server now entry.1 entry.2

theorem sendAll_cases (batch : List (List UInt8 × List Point)) :
    ∀ {start sys : System σ} {before : List (List UInt8 × List Point)}, start.Sized → start.Queued sys before →
      (∀ entry ∈ before ++ batch, ValidKey entry.1) →
      (∃ failure after, sendAll server now batch sys = .error failure after ∧
        clientBufSize < (queueBytes (before ++ batch)).length) ∨
      ∃ responses after, sendAll server now batch sys = .ok responses after ∧ (∀ response ∈ responses, response = 0) ∧
        start.Queued after (before ++ batch) := by
  induction batch with
  | nil =>
      intro start sys before _ queued _
      rw [List.append_nil]
      exact .inr ⟨[], sys, rfl, fun _ mem => absurd mem List.not_mem_nil, queued⟩
  | cons entry batch ih =>
      intro start sys before sized queued valid
      have split : before ++ entry :: batch = before ++ [entry] ++ batch := by simp
      have unfolds : sendAll server now (entry :: batch) = (do
          let response ← menoetiusClientSend server now entry.1 entry.2
          let more ← sendAll server now batch
          pure (response :: more)) := List.mapM_cons
      rw [split] at valid ⊢
      rw [unfolds]
      rcases menoetiusClientSend_cases server now sized queued
        (fun other mem => valid other (List.mem_append_left _ mem)) with ⟨failure, after, stops, large⟩ | ⟨middle, sent, next⟩
      · refine .inl ⟨failure, after, EStateM.bind_error stops _, ?_⟩
        rw [queueBytes, List.flatMap_append, List.length_append]
        exact Nat.lt_add_right _ large
      · rw [EStateM.bind_ok sent]
        rcases ih sized next valid with ⟨failure, after, stops, large⟩ | ⟨responses, after, run, zeros, last⟩
        · exact .inl ⟨failure, after, EStateM.bind_error stops _, large⟩
        · exact .inr ⟨0 :: responses, after, EStateM.bind_ok run _, List.forall_mem_cons.mpr ⟨rfl, zeros⟩, last⟩

theorem sendSyncAll_run (batch : List (List UInt8 × List Point)) :
    ∀ {sys : System σ} {storage : σ}, sys.Idle → ValidBatch batch →
      writeBatch server.calls (now - server.calls.retentionSeconds) batch sys.conn.storage = .ok () storage →
      ∃ responses after, sendSyncAll server now batch sys = .ok responses after ∧ after.conn.storage = storage := by
  induction batch with
  | nil =>
      intro sys storage _ _ writes
      cases writes
      exact ⟨[], sys, rfl, rfl⟩
  | cons entry batch ih =>
      intro sys storage idle valid writes
      obtain ⟨⟨key, few⟩, others⟩ := List.forall_mem_cons.mp valid
      obtain ⟨_, middle, first, rest⟩ := EStateM.of_bind_ok writes
      rw [writePointsTo_eq, ← writeBatch_single] at first
      obtain ⟨between, sent, answered, same, _⟩ := (menoetiusClientSendSync_run server now idle key few).1 middle first
      have rest : writeBatch server.calls (now - server.calls.retentionSeconds) batch between.conn.storage =
          .ok () storage := by
        rw [same.storage]
        exact rest
      obtain ⟨responses, after, run, final⟩ := ih answered.idle others rest
      have unfolds : sendSyncAll server now (entry :: batch) = (do
          let response ← menoetiusClientSendSync server now entry.1 entry.2
          let more ← sendSyncAll server now batch
          pure (response :: more)) := List.mapM_cons
      rw [unfolds, EStateM.bind_ok sent, EStateM.bind_ok run]
      exact ⟨_, after, rfl, final⟩

/-- All calls return 0, the queue is empty, and the storage is as after the same points sent at once. -/
def SendsAlike (sys : System σ) (batch : List (List UInt8 × List Point)) (storage : σ) : Prop :=
  ∃ responses after, sendBatched server now batch sys = .ok responses after ∧ (∀ response ∈ responses, response = 0) ∧
    after.client.queuedMetrics = [] ∧ after.client.numQueuedMetrics = 0 ∧ after.conn.storage = storage ∧
    ∃ codes immediate, sendSyncAll server now batch sys = .ok codes immediate ∧ immediate.conn.storage = storage

/-- The bytes that the calls queue. -/
def queuedSize (batch : List (List UInt8 × List Point)) : Nat :=
  (batch.map fun entry => 6 + entry.1.length + 16 * entry.2.length).sum

theorem queueBytes_length (batch : List (List UInt8 × List Point)) :
    (queueBytes batch).length = queuedSize batch := by
  have entry : ∀ entry : List UInt8 × List Point,
      (putEntry entry.1 entry.2).length = 6 + entry.1.length + 16 * entry.2.length := by
    intro entry
    rw [putEntry, List.length_append, prefixed_length, List.length_append, bytesOf_length, pointsBytes,
      List.length_flatMap]
    simp only [pointBytes_length, List.map_const', List.sum_replicate, smul_eq_mul]
    omega
  rw [queueBytes, List.length_flatMap, queuedSize]
  simp only [entry]

theorem queued_init {sys : System σ} {arrived : Nat → Nat} (fresh : sys.client = menoetiusClientInit arrived) :
    sys.Queued sys [] := by
  refine ⟨rfl, ?_, ?_, ?_, ?_, ?_, ?_⟩ <;> rw [fresh] <;> rfl

/-- A queue that does not fit the buffer is not sent. -/
theorem sendBatched_large {sys : System σ} {arrived : Nat → Nat} (fresh : sys.client = menoetiusClientInit arrived)
    (sized : sys.Sized) {batch : List (List UInt8 × List Point)} (valid : ∀ entry ∈ batch, ValidKey entry.1)
    (large : clientBufSize < queuedSize batch) :
    ∃ failure after, sendBatched server now batch sys = .error failure after := by
  unfold sendBatched
  rcases sendAll_cases server now batch sized (queued_init fresh) valid with
    ⟨failure, after, stops, _⟩ | ⟨responses, after, run, _, queued⟩
  · exact ⟨failure, after, EStateM.bind_error stops _⟩
  · rw [List.nil_append] at queued
    obtain ⟨failure, final, stops⟩ := menoetiusClientFlush_large server now (queued.idle sized) queued.writeBufSize
      (by rw [queued.queuedMetrics, queueBytes_length]; exact large)
    rw [EStateM.bind_ok run]
    exact ⟨failure, final, EStateM.bind_error stops _⟩

/-- Queued points are sent as points that are sent at once, exactly when the queue fits the buffer of the stream. -/
theorem sendBatched_iff {sys : System σ} {arrived : Nat → Nat} (fresh : sys.client = menoetiusClientInit arrived)
    (sized : sys.Sized) {batch : List (List UInt8 × List Point)} (valid : ∀ entry ∈ batch, ValidKey entry.1)
    {storage : σ}
    (writes : writeBatch server.calls (now - server.calls.retentionSeconds) batch sys.conn.storage = .ok () storage) :
    SendsAlike server now sys batch storage ↔ queuedSize batch ≤ clientBufSize := by
  constructor
  · rintro ⟨responses, after, run, _⟩
    by_contra large
    obtain ⟨failure, final, stops⟩ := sendBatched_large server now fresh sized valid (Nat.lt_of_not_le large)
    rw [run] at stops
    cases stops
  · intro short
    rw [← queueBytes_length] at short
    have counts := validBatch_of_short valid short
    have start := queued_init fresh
    rcases sendAll_cases server now batch sized start valid with
      ⟨_, _, _, large⟩ | ⟨responses, middle, run, zeros, queued⟩
    · exact absurd short (Nat.not_le.mpr large)
    · rw [List.nil_append] at queued
      rw [← queued.conn] at writes
      obtain ⟨after, flushed, empty, none, final⟩ := menoetiusClientFlush_run server now (queued.idle sized) counts
        queued.queuedMetrics short writes
      rw [queued.conn] at writes
      refine ⟨responses ++ [0], after, ?_, ?_, empty, none, final,
        sendSyncAll_run server now batch (start.idle sized) counts writes⟩
      · unfold sendBatched
        rw [EStateM.bind_ok run, EStateM.bind_ok flushed]
        rfl
      · intro response mem
        rcases List.mem_append.mp mem with old | last
        · exact zeros response old
        · exact List.mem_singleton.mp last

end

/-- The points of two keys are queued and flushed. The keys are written in their order. -/
theorem sendBatched_iff_point :
    ∃ store stored, storageInit 10 28 (fun _ _ => 0) newStorage = .ok () store ∧
      stored.items.map StorageItem.key = [some [98], some [97]] ∧
      SendsAlike ⟨storageCalls, [], []⟩ 12 (newSystem store)
        [([98], [(5#64, 7#64), (6#64, 7#64)]), ([97], [(4#64, 1#64)])] stored := by
  have passed : ((storageInit 10 28 fun _ _ => 0) newStorage).passes (fun _ store =>
      (writeBatch storageCalls (12 - 10) [([98], [(5#64, 7#64), (6#64, 7#64)]), ([97], [(4#64, 1#64)])] store).passes
        fun _ stored => stored.items.map StorageItem.key = [some [98], some [97]]) = true := by
    decide +kernel
  obtain ⟨_, store, opened, checked⟩ := EStateM.Result.of_passes passed
  obtain ⟨_, stored, writes, keys⟩ := EStateM.Result.of_passes checked
  have valid : ∀ entry ∈ [(([98] : List UInt8), [((5#64, 7#64) : Point), (6#64, 7#64)]), ([97], [(4#64, 1#64)])],
      ValidKey entry.1 := by
    simp [ValidKey, maxLfmSize]
  exact ⟨store, stored, opened, of_decide_eq_true keys,
    (sendBatched_iff ⟨storageCalls, [], []⟩ 12 (show (newSystem store).client = _ from rfl)
      (newSystem_idle store).sized valid writes).mpr (by decide)⟩

/-- A key with 64 points is queued, but not flushed. -/
theorem sendBatched_refused :
    ∃ store, storageInit 10 28 (fun _ _ => 0) newStorage = .ok () store ∧
      ∀ storage, ¬ SendsAlike ⟨storageCalls, [], []⟩ 12 (newSystem store)
        [([97], List.replicate 64 (5#64, 7#64))] storage := by
  obtain ⟨store, _, opened, _⟩ := recentWrites_first
  refine ⟨store, opened, ?_⟩
  rintro storage ⟨responses, after, run, _⟩
  have valid : ∀ entry ∈ [(([97] : List UInt8), List.replicate 64 ((5#64, 7#64) : Point))], ValidKey entry.1 :=
    List.forall_mem_singleton.mpr ⟨by decide, by decide⟩
  obtain ⟨failure, final, stops⟩ := sendBatched_large ⟨storageCalls, [], []⟩ 12
    (show (newSystem store).client = _ from rfl) (newSystem_idle store).sized valid (by decide)
  rw [run] at stops
  cases stops

end Menoetius
