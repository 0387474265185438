import Menoetius.ClientFrame
import Menoetius.QueryAnswer

/-
This file follows the calls of a client over one connection, and shows which of them read their whole response.
-/

namespace Menoetius
open EStateM LittleEndian HasStream

section
variable {σ α : Type} (server : Server σ) (now : Int)

/-- A step that returns has returned without a shutdown. -/
theorem of_orShutdown_ok {action : SystemM σ α} {sys after : System σ} {value : α}
    (run : orShutdown server now action sys = .ok value after) : action sys = .ok value after := by
  have never : (orShutdown server now action).Ends sys (fun value after => action sys = .ok value after)
      fun _ _ => True := by
    cases first : action sys with
    | ok other middle => exact ends_of_ok (orShutdown_ok server now first) rfl
    | error failure middle =>
        cases failure with
        | code err =>
            obtain ⟨failure, final, failed⟩ := orShutdown_error server now first
            exact ends_of_error failed trivial
        | abort site =>
            have stopped : orShutdown server now action sys = .error (.abort site) middle := by rw [orShutdown, first]
            exact ends_of_error stopped trivial
  exact never.of_ok run

theorem menoetiusClientEnsureConnected_size {sys after : System σ}
    (run : menoetiusClientEnsureConnected server now sys = .ok () after) :
    after.conn.ss.writeBufSize = sys.conn.ss.writeBufSize := by
  obtain ⟨_, _, start, run⟩ := of_bind_ok run
  cases start
  by_cases connected : sys.client.connected
  · rw [if_pos connected] at run
    cases run
    rfl
  · rw [if_neg connected] at run
    obtain ⟨_, _, started, run⟩ := of_bind_ok run
    cases started
    obtain ⟨ss, _, rfl⟩ := of_onStream_ok (of_orShutdown_ok server now run)
    rfl

/-- The rule for a call: what its request sends, what the handler answers, and what the client does with the answer.
A handler that fails must not have sent anything. -/
theorem clientCall_ends {sys : System σ} (idle : sys.Idle) {send : SystemM σ Unit} {receive : SystemM σ α} {code : Nat}
    {body : List UInt8} {post : α → System σ → Prop} {stop : Failure → System σ → Prop} (small : code < 256)
    (stops : ∀ site after, stop (.abort site) after)
    (sends : ∀ ready : System σ, ready.Ready → sys.SameClient ready → send.Ends ready
      (fun _ after => ∃ ss, after = withStream ready ss ∧ ready.client.ss.Moved ss [] (bytesOf 1 code ++ body)) stop)
    (serves : ∀ data : Conn σ, System.SameStore sys.conn data → data.ss.Serving body →
      data.ss.writeBufSize = sys.conn.ss.writeBufSize →
      (handleConnRpc server.calls now server.gitCommit server.buildTime code).Ends data
        (fun _ conn => ∃ response, data.ss.Moved conn.ss body response ∧ conn.ss.written = [] ∧
          ∀ after : System σ, after.Answered response → sys.SameClient after → receive.Ends after post stop)
        fun failure conn => failure.IsCode → conn.ss.outgoing = [] ∧
          ∀ after : System σ, after.client.ss.Valid → after.client.ss.input = [] →
            clientBufSize ≤ after.client.ss.readBufSize → receive.Ends after post stop) :
    (clientCall server now send receive).Ends sys post stop := by
  obtain ⟨ready, connects, isReady, sameStore, sameClient⟩ := menoetiusClientEnsureConnected_run server now idle
  refine ends_bind_ok connects ((sends ready isReady sameClient).bind ?_)
  rintro _ _ ⟨written, rfl, moved⟩
  obtain ⟨ss, flushed, sent⟩ := isReady.flush server now moved
  refine ends_bind_ok flushed ?_
  obtain ⟨serving, start, size, good, bad, fails⟩ := awaitServer_run server now sent small
  have connectedSize := menoetiusClientEnsureConnected_size server now connects
  have size : serving.writeBufSize = sys.conn.ss.writeBufSize := size.trans connectedSize
  have handled := serves { (withStream ready ss).conn with ss := serving } ⟨sameStore.storage, sameStore.clusterConfig,
    sameStore.clusterConfigHash⟩ start size
  cases run : handleConnRpc server.calls now server.gitCommit server.buildTime code
      { (withStream ready ss).conn with ss := serving } with
  | ok value conn =>
      obtain ⟨response, moved, none, receives⟩ := handled.of_ok run
      obtain ⟨input, outgoing⟩ := start.done moved none
      have answered := sent.answer moved.valid (moved.readBufSize ▸ start.read) (moved.writeBufSize ▸ start.write) input
        none
      rw [outgoing] at answered
      exact ends_bind_ok (good conn run input) (receives _ answered (sameClient.trans ⟨rfl, rfl, rfl, rfl, rfl, rfl⟩))
  | error failure conn =>
      cases failure with
      | code err =>
          obtain ⟨none, receives⟩ := handled.of_error run trivial
          refine ends_bind_ok (bad err conn run) (receives _ ⟨sent.client.unread, sent.client.written⟩ ?_ ?_)
          · have input : (withStream ready ss).client.ss.unread ++ (withStream ready ss).client.ss.incoming = [] :=
              sent.answered
            change (withStream ready ss).client.ss.unread ++
              ((withStream ready ss).client.ss.incoming ++ conn.ss.outgoing) = []
            rw [none, List.append_nil, input]
          · exact sent.sized.read.trans sent.read.ge
      | abort site =>
          obtain ⟨after, stopped⟩ := fails site conn run
          exact ends_of_error (bind_error stopped _) (stops site after)

end

/-- A connection that is open after a call has no bytes on their way. -/
def System.Framed {σ : Type} (sys : System σ) : Prop := sys.client.connected = true → sys.Answered []

/-- A call leaves a framed connection, when it returns. -/
abbrev LeavesFramed {σ α : Type} (action : SystemM σ α) (sys : System σ) : Prop :=
  action.Ends sys (fun _ after => after.Framed) fun failure after => failure.IsCode → after.Framed

theorem System.Framed.of_closed {σ : Type} {sys : System σ} (closed : sys.client.connected = false) : sys.Framed :=
  fun connected => absurd (closed.symm.trans connected) Bool.false_ne_true

section
variable {σ α : Type} {server : Server σ} {now : Int}

/-- A request that fits the buffers of the client is sent. -/
theorem System.Ready.sends {sys : System σ} (ready : sys.Ready) {send : SystemM σ Unit} {request : List UInt8}
    (exchanges : Exchanges 0 clientBufSize send [] request ()) {stop : Failure → System σ → Prop} :
    send.Ends sys (fun _ after => ∃ ss, after = withStream sys ss ∧ sys.client.ss.Moved ss [] request) stop := by
  obtain ⟨ss, run, moved⟩ := exchanges sys ready.client (Nat.zero_le _) (ready.sized.write.trans ready.write.ge)
    List.nil_prefix
  exact ends_of_ok run ⟨ss, rfl, moved⟩

/-- A failed step ends the connection, so that the call leaves it framed. -/
theorem orShutdown_framed {action : SystemM σ α} {sys : System σ}
    (ends : action.Ends sys (fun _ after => after.Framed) fun _ _ => True) :
    LeavesFramed (orShutdown server now action) sys :=
  (orShutdown_ends ends).mono (fun _ _ framed => framed) fun _ _ closed code => .of_closed (closed code)

/-- The response is read to its end. -/
theorem System.Answered.reads {sys : System σ} {response : List UInt8} {action : SystemM σ α} {value : α}
    (answered : sys.Answered response) (reads : Exchanges clientBufSize 0 action response [] value)
    {stop : Failure → System σ → Prop} : action.Ends sys (fun _ after => after.Framed) stop := by
  rw [← List.append_nil response] at answered
  obtain ⟨ss, run, done⟩ := answered.receive reads
  exact ends_of_ok run fun _ => done

/-- A call whose request is refused ends its connection. -/
theorem clientCall_refused {sys : System σ} (idle : sys.Idle) {send : SystemM σ Unit} {receive : SystemM σ α}
    (sends : ∀ ready : System σ, ready.Ready → sys.SameClient ready → send.Ends ready (fun _ _ => False)
      fun failure after => failure.IsCode → after.client.connected = false) :
    LeavesFramed (clientCall server now send receive) sys := by
  obtain ⟨ready, connects, isReady, _, sameClient⟩ := menoetiusClientEnsureConnected_run server now idle
  have refused : send.Ends ready (fun _ _ => False) fun failure after => failure.IsCode → after.Framed :=
    (sends ready isReady sameClient).mono (fun _ _ never => never) fun _ _ closed code => .of_closed (closed code)
  exact ends_bind_ok connects (refused.bind fun _ _ never => never.elim)

/-- A call whose steps all end the connection when they fail. Its handler sends one response, or none. -/
theorem clientCall_framed {sys : System σ} (idle : sys.Idle) {send : SystemM σ Unit} {receive : SystemM σ α}
    {code : Nat} {body response : List UInt8} {value : α} (small : code < 256)
    (sends : Exchanges 0 clientBufSize send [] (bytesOf 1 code ++ body) ())
    (serves : Exchanges connBufSize connBufSize
      (handleConnRpc server.calls now server.gitCommit server.buildTime code) body response ())
    (flushes : ∀ data after : Conn σ, handleConnRpc server.calls now server.gitCommit server.buildTime code data =
      .ok () after → after.ss.written = [])
    (reads : Exchanges clientBufSize 0 receive response [] value) :
    LeavesFramed (clientCall server now send receive) sys := by
  refine clientCall_ends server now idle small (fun _ _ code => False.elim code)
    (fun ready isReady _ => isReady.sends sends) fun data _ serving _ => ?_
  obtain ⟨after, run, moved⟩ := serves data serving.valid serving.read serving.write ⟨[], by
    rw [List.append_nil]; exact serving.input.symm⟩
  exact ends_of_ok run ⟨response, moved, flushes _ _ run, fun _ answered _ => answered.reads reads⟩

end

section
variable {σ : Type} {server : Server σ} {now : Int} {sys : System σ}

/-- A handler that ends with a flush leaves nothing in its buffer. -/
theorem written_of_flush {α : Type} {action : ConnM σ α} {data after : Conn σ}
    (run : (action >>= fun _ => onStream structuredStreamFlush) data = .ok () after) : after.ss.written = [] := by
  obtain ⟨_, _, _, flush⟩ := of_bind_ok run
  obtain ⟨_, flushed, rfl⟩ := of_onStream_ok flush
  cases flushed
  rfl

theorem menoetiusClientGetStatus_framed (idle : sys.Idle) :
    LeavesFramed (menoetiusClientGetStatus server now) sys := by
  have sends : Exchanges 0 clientBufSize (orShutdown server now (onStream (structuredStreamWriteUint8 rpcGetStatus))) []
      (bytesOf 1 rpcGetStatus ++ []) () := (exchanges_writeUint _ (by decide)).on.orShutdown server now
  have serves : Exchanges connBufSize connBufSize (handleConnGetStatus : ConnM σ Unit) ([] ++ []) (bytesOf 1 0 ++ []) () :=
    (exchanges_writeUint 0 (by decide)).on.bind exchanges_flush.on
  have reads : Exchanges clientBufSize 0 (orShutdown server now (onStream structuredStreamReadUint8)) (bytesOf 1 0 ++ [])
      [] 0 := (exchanges_readUint (by decide) (by decide)).on.orShutdown server now
  exact clientCall_framed idle (by decide) sends serves (fun _ _ => written_of_flush) reads

/-- The bytes that `structured_stream_write_uint16_prefixed_string` takes from a string. -/
def prefixedText (text : List UInt8) : List UInt8 := (cString text).take ((cString text).length % 2 ^ 16)

theorem prefixedText_length (text : List UInt8) : (prefixedText text).length = (cString text).length % 2 ^ 16 :=
  List.length_take_of_le (Nat.mod_le _ _)

/-- A string is written when the bytes that are taken from it fit the buffer. -/
theorem exchanges_writeText {readSize writeSize : Nat} {text : List UInt8} (fits : (prefixedText text).length ≤ writeSize)
    (room : 2 ≤ writeSize) :
    Exchanges readSize writeSize (structuredStreamWriteUint16PrefixedString text) [] (prefixed (prefixedText text)) () := by
  have length := prefixedText_length text
  unfold structuredStreamWriteUint16PrefixedString structuredStreamWriteUint16PrefixedBytes
  rw [prefixed, length]
  refine (exchanges_writeUint _ room).bind ?_
  by_cases none : (cString text).length % 2 ^ 16 = 0
  · rw [if_pos none, List.eq_nil_of_length_eq_zero (length.trans none)]
    exact exchanges_pure ()
  · rw [if_neg none]
    exact exchanges_writeBytes fits

theorem structuredStreamWriteBytes_large {bytes : List UInt8} {ss : Stream} (large : ss.writeBufSize < bytes.length) :
    structuredStreamWriteBytes bytes ss = .error (.code .structuredStreamBufTooSmall) ss := by
  unfold structuredStreamWriteBytes structuredStreamEnsureWrite
  refine bind_error ?_ _
  rw [bind_ok (get_apply ss), if_neg (by omega), if_pos large]
  rfl

/-- A string that does not fit the buffer is not written. -/
theorem writeText_large {text : List UInt8} {ss : Stream} (valid : ss.Valid) (room : 2 ≤ ss.writeBufSize)
    (large : ss.writeBufSize < (prefixedText text).length) :
    ∃ after, structuredStreamWriteUint16PrefixedString text ss = .error (.code .structuredStreamBufTooSmall) after := by
  have length := prefixedText_length text
  obtain ⟨middle, wrote, moved⟩ := @exchanges_writeUint 0 2 2 ((cString text).length % 2 ^ 16) le_rfl ss valid
    (Nat.zero_le _) room List.nil_prefix
  unfold structuredStreamWriteUint16PrefixedString structuredStreamWriteUint16PrefixedBytes
  refine ⟨middle, (bind_ok wrote _).trans ?_⟩
  rw [if_neg (by omega)]
  exact structuredStreamWriteBytes_large (moved.writeBufSize ▸ large)

end

section
variable {σ : Type} {server : Server σ} {now : Int} {sys : System σ}

/-- The request of `menoetius_client_set_config`. -/
def setConfigRequest (server : Server σ) (now : Int) (clusterConfig : List UInt8) : SystemM σ Unit := do
  orShutdown server now (onStream (structuredStreamWriteUint8 rpcSetClusterConfig))
  orShutdown server now (onStream (structuredStreamWriteUint16PrefixedString clusterConfig))

/-- The response of `menoetius_client_set_config`. -/
def setConfigResponse (server : Server σ) (now : Int) : SystemM σ Unit :=
  orShutdown server now do
    let serverStatus ← onStream structuredStreamReadUint8
    if serverStatus ≠ 0 then throw (.code (.res 1)) else pure ()

theorem menoetiusClientSetConfig_eq (clusterConfig : List UInt8) :
    menoetiusClientSetConfig server now clusterConfig =
      clientCall server now (setConfigRequest server now clusterConfig) (setConfigResponse server now) := by
  unfold menoetiusClientSetConfig clientCall setConfigRequest setConfigResponse
  simp only [bind_assoc]

/-- The code of a request is written. -/
theorem System.Ready.writesCode (ready : sys.Ready) (code : Nat) :
    ∃ ss, orShutdown server now (onStream (structuredStreamWriteUint8 code)) sys = .ok () (withStream sys ss) ∧
      sys.client.ss.Moved ss [] (bytesOf 1 code) := by
  have writes : Exchanges 0 clientBufSize (orShutdown server now (onStream (structuredStreamWriteUint8 code))) []
      (bytesOf 1 code) () := (exchanges_writeUint code (by decide)).on.orShutdown server now
  exact writes sys ready.client (Nat.zero_le _) (ready.sized.write.trans ready.write.ge) List.nil_prefix

theorem menoetiusClientSetConfig_framed (idle : sys.Idle) (size : sys.client.writeBufSize = clientBufSize)
    (clusterConfig : List UInt8) : LeavesFramed (menoetiusClientSetConfig server now clusterConfig) sys := by
  rw [menoetiusClientSetConfig_eq]
  by_cases fits : (prefixedText clusterConfig).length ≤ clientBufSize
  · have sends : Exchanges 0 clientBufSize (setConfigRequest server now clusterConfig) []
        (bytesOf 1 rpcSetClusterConfig ++ prefixed (prefixedText clusterConfig)) () := by
      refine ((exchanges_writeUint _ (by decide)).on.orShutdown server now).bind ?_
      exact (exchanges_writeText fits (by decide)).on.orShutdown server now
    have reads : Exchanges clientBufSize 0 (setConfigResponse server now) (bytesOf 1 0) [] () := by
      have number : Exchanges clientBufSize 0 (onStream structuredStreamReadUint8 : SystemM σ Nat) (bytesOf 1 0) [] 0 :=
        (exchanges_readUint (by decide) (by decide)).on
      rw [← List.append_nil (bytesOf 1 0)]
      exact (number.bind (exchanges_pure ())).orShutdown server now
    refine clientCall_ends server now idle (by decide) (fun _ _ code => False.elim code)
      (fun ready isReady _ => isReady.sends sends) fun data _ serving _ => ?_
    have small : (prefixedText clusterConfig).length < 2 ^ 16 := fits.trans_lt (by decide)
    have text : Exchanges connBufSize connBufSize
        (onStream structuredStreamReadUint16PrefixedBytesInplace : ConnM σ (List UInt8))
        (prefixed (prefixedText clusterConfig)) [] (prefixedText clusterConfig) :=
      (exchanges_readPrefixed small ((Nat.add_le_add_right fits 2).trans (by decide))).on
    have status : Exchanges connBufSize connBufSize (do
        onStream (structuredStreamWriteUint8 0)
        onStream structuredStreamFlush : ConnM σ Unit) ([] ++ []) (bytesOf 1 0 ++ []) () :=
      (exchanges_writeUint 0 (by decide)).on.bind exchanges_flush.on
    obtain ⟨read, took, moved⟩ := text data serving.valid serving.read serving.write
      ⟨[], by rw [List.append_nil]; exact serving.input.symm⟩
    have moved : data.ss.Moved read (prefixed (prefixedText clusterConfig)) [] := moved
    let changed : Conn σ :=
      { data with
        ss := read, clusterConfig := some (cString (prefixedText clusterConfig))
        clusterConfigHash := server.calls.sha1 (cString (prefixedText clusterConfig)), hasValidConfig := false }
    obtain ⟨after, run, answered⟩ := status changed moved.valid (moved.readBufSize ▸ serving.read)
      (moved.writeBufSize ▸ serving.write) List.nil_prefix
    have handled : handleConnSetClusterConfig server.calls data = .ok () (withStream changed after) :=
      (bind_ok took _).trans ((bind_ok (modify_apply _ _) _).trans run)
    have both : data.ss.Moved after (prefixed (prefixedText clusterConfig) ++ []) ([] ++ bytesOf 1 0) :=
      moved.trans answered
    rw [List.append_nil, List.nil_append] at both
    exact ends_of_ok handled ⟨bytesOf 1 0, both, written_of_flush run, fun _ answered _ => answered.reads reads⟩
  · refine clientCall_refused idle fun ready isReady same => ?_
    obtain ⟨ss, wrote, moved⟩ := @System.Ready.writesCode σ server now ready isReady rpcSetClusterConfig
    have bufSize : ss.writeBufSize = clientBufSize :=
      moved.writeBufSize.trans (isReady.write.trans (same.writeBufSize.trans size))
    refine ends_bind_ok wrote (orShutdown_ends ?_)
    obtain ⟨after, failed⟩ := @writeText_large clusterConfig ss moved.valid (by rw [bufSize]; decide)
      (by rw [bufSize]; exact Nat.not_le.mp fits)
    exact ends_of_error (onStream_error failed) trivial

end

section
variable {σ : Type} {server : Server σ} {now : Int} {sys : System σ}

theorem menoetiusClientGet_framed
    (bounded : ∀ key maxNumPts storage points after,
      server.calls.storageGet key maxNumPts storage = .ok points after → points.length ≤ maxNumPts) (idle : sys.Idle)
    {key : List UInt8} (valid : ValidKey key) (maxNumPts : Nat) :
    LeavesFramed (menoetiusClientGet server now key maxNumPts) sys := by
  rcases menoetiusClientGet_run server now idle valid.2 maxNumPts with
    ⟨points, status, storage, replies, data, middle, answered, run, _⟩ | ⟨site, after, stopped, _⟩
  · have few := replies.bounded bounded points List.mem_cons_self
    unfold maxPtsPerSeries at few
    refine ends_of_eq run ?_
    by_cases fits : points.length ≤ maxNumPts
    · exact answered.reads (exchanges_clientGetResponse server now data replies.status_small (by omega) fits)
    · have number : Exchanges clientBufSize 0 (onStream structuredStreamReadUint32 : SystemM σ Nat)
          (bytesOf 4 points.length) [] points.length := (exchanges_readUint (by decide) (by omega)).on
      rw [getGroup, List.append_assoc] at answered
      obtain ⟨ss, counted, _⟩ := answered.receive number
      refine orShutdown_framed (ends_bind_ok counted ?_)
      rw [if_pos (Nat.not_le.mp fits)]
      exact ends_of_error (throw_apply _ _) trivial
  · exact ends_of_error stopped fun code => False.elim code

theorem menoetiusClientSendSync_framed (idle : sys.Idle) {key : List UInt8} (valid : ValidKey key)
    {points : List Point} (few : points.length < 2 ^ 32) :
    LeavesFramed (menoetiusClientSendSync server now key points) sys := by
  obtain ⟨good, bad⟩ := menoetiusClientSendSync_run server now idle valid few
  cases writes : writeBatch server.calls (now - server.calls.retentionSeconds) [(key, points)] sys.conn.storage with
  | ok value storage =>
      obtain ⟨after, run, answered, _⟩ := good storage writes
      exact ends_of_ok run fun _ => answered
  | error failure storage =>
      obtain ⟨site, rfl⟩ := writeBatch_error _ _ writes
      obtain ⟨after, run⟩ := bad site storage writes
      exact ends_of_error run fun code => False.elim code

theorem menoetiusClientFlush_framed (idle : sys.Idle) (size : sys.client.writeBufSize = clientBufSize)
    (queued : sys.QueueValid) : LeavesFramed (menoetiusClientFlush server now) sys := by
  obtain ⟨batch, queue, keys⟩ := queued
  refine ends_of_eq (menoetiusClientFlush_eq server now idle) ?_
  by_cases short : sys.client.queuedMetrics.length ≤ clientBufSize
  · have valid := validBatch_of_short keys (queue ▸ short)
    refine clientCall_ends server now idle (by decide) (fun _ _ code => False.elim code)
      (fun ready isReady _ => isReady.sends (exchanges_flushRequest server now short)) fun data _ serving _ => ?_
    obtain ⟨good, bad⟩ := handleConnPutData_run server.calls now valid serving.valid
      ((by decide : maxLfmSize + 2 ≤ connBufSize).trans serving.read) ((by decide : 5 ≤ connBufSize).trans serving.write)
      ⟨[], by rw [serving.input, List.append_nil, queue]; rfl⟩
    cases writes : writeBatch server.calls (now - server.calls.retentionSeconds) batch data.storage with
    | ok value storage =>
        obtain ⟨ss, run, moved, flushed⟩ := good storage writes
        refine ends_of_ok run ⟨bytesOf 1 (statusOf data 0), by rw [queue]; exact moved, flushed, ?_⟩
        intro after answered _
        rw [← List.append_nil (bytesOf 1 _)] at answered
        obtain ⟨final, response, done⟩ := answered.receive (exchanges_readResponse data (by decide))
        refine ends_bind_ok response ?_
        rw [if_pos rfl]
        exact ends_of_ok (bind_ok (modify_apply _ _) _) fun _ => ⟨⟨⟨done.sized.read, done.sized.write,
          done.sized.serverRead, done.sized.serverWrite⟩, done.connected, done.open', done.client, done.server, done.read,
          done.write, done.served, done.replied⟩, done.greeted, done.answered, done.sent⟩
    | error failure storage =>
        obtain ⟨site, rfl⟩ := writeBatch_error _ _ writes
        obtain ⟨after, stopped⟩ := bad _ storage writes
        exact ends_of_error stopped fun code => False.elim code
  · refine clientCall_refused idle fun ready isReady same => ?_
    obtain ⟨ss, wrote, moved⟩ := @System.Ready.writesCode σ server now ready isReady rpcPutData
    have bufSize : ss.writeBufSize = clientBufSize :=
      moved.writeBufSize.trans (isReady.write.trans (same.writeBufSize.trans size))
    have refused := writeChunks_large bufSize (Nat.not_le.mp short)
    have closes : (orShutdown server now (onStream (writeChunks sys.client.queuedMetrics.length
        sys.client.queuedMetrics))).Ends (withStream ready ss) (fun _ _ => False) fun failure after =>
          failure.IsCode → after.client.connected = false :=
      orShutdown_ends (ends_of_error (onStream_error refused) trivial)
    exact ends_bind_ok wrote (closes.bind fun _ _ never => never.elim)

end

section
variable {ss : Stream} {readSize writeSize : Nat} {bytes : List UInt8}

theorem exchanges_readBytesInplace (fits : bytes.length ≤ readSize) :
    Exchanges readSize writeSize (structuredStreamReadBytesInplace bytes.length) bytes [] bytes := by
  intro ss valid read _ part
  obtain ⟨middle, run, avail, moved⟩ := structuredStreamEnsureRead_run valid (fits.trans read) part.length_le
  have same : ss.input = middle.input := moved.input
  obtain ⟨rest, input⟩ := part
  obtain ⟨after, again, further, _⟩ := takeUnread_run moved.valid (same.symm.trans input.symm) avail
  have run : structuredStreamEnsureRead bytes.length ss = .ok () middle := run
  have looked : underrun (structuredStreamEnsureRead bytes.length) ss = .ok () middle := by rw [underrun, run]
  exact ⟨after, by rw [structuredStreamReadBytesInplace, bind_ok looked, again]; rfl, moved.trans further⟩

/-- Bytes that do not fit the buffer with their length are not read. -/
theorem readPrefixed_large {rest : List UInt8} (valid : ss.Valid) (short : bytes.length < 2 ^ 16)
    (room : 2 ≤ ss.readBufSize) (large : ss.readBufSize < bytes.length + 2) (input : ss.input = prefixed bytes ++ rest) :
    ∃ after, structuredStreamReadUint16PrefixedBytesInplace ss =
      .error (.code .structuredStreamBufTooSmall) after := by
  have long : 2 ≤ ss.input.length := by
    rw [input, List.length_append, prefixed_length]
    omega
  obtain ⟨first, run, avail, moved⟩ := structuredStreamEnsureRead_run valid room long
  have firstInput : first.input = prefixed bytes ++ rest := moved.input.symm.trans input
  have number : valueOf (first.unread.take 2) = bytes.length := by
    have front := congrArg (List.take 2) firstInput
    rw [Stream.input, List.take_append_of_le_length avail, prefixed, List.append_assoc,
      List.take_left' (bytesOf_length 2 _)] at front
    rw [front, valueOf_bytesOf_of_lt 2 _ (by omega)]
  have held := moved.valid.unread
  have size := moved.readBufSize
  have refused : structuredStreamEnsureRead (bytes.length + 2) first =
      .error (.code .structuredStreamBufTooSmall) first := by
    unfold structuredStreamEnsureRead
    rw [bind_ok (get_apply first), if_neg (by omega), if_pos (by omega)]
    rfl
  have looked : underrun (structuredStreamEnsureRead (bytes.length + 2)) first =
      .error (.code .structuredStreamBufTooSmall) first := by rw [underrun, refused]
  unfold structuredStreamReadUint16PrefixedBytesInplace
  rw [bind_ok run, bind_ok (get_apply first), number]
  exact ⟨first, bind_error looked _⟩

end

section
variable {σ : Type} {server : Server σ} {now : Int} {sys : System σ}

/-- A response with bytes left in it is not framed. -/
theorem System.Answered.unframed {response : List UInt8} (answered : sys.Answered response) (some : response ≠ []) :
    ¬ sys.Framed := fun framed => some (answered.answered.symm.trans (framed answered.connected).answered)

/-- A call leaves a framed connection unless it leaves a part of its response, when it returns. -/
abbrev FramedUnless {σ α : Type} (leaves : Prop) (action : SystemM σ α) (sys : System σ) : Prop :=
  action.Ends sys (fun _ after => after.Framed ↔ ¬ leaves) fun failure after =>
    failure.IsCode → (after.Framed ↔ ¬ leaves)

theorem LeavesFramed.unless {α : Type} {action : SystemM σ α} {leaves : Prop} (framed : LeavesFramed action sys)
    (never : ¬ leaves) : FramedUnless leaves action sys :=
  framed.mono (fun _ _ holds => iff_of_true holds never) fun _ _ holds code => iff_of_true (holds code) never

/-- The response of `menoetius_client_get_config`. -/
def getConfigResponse (server : Server σ) (now : Int) (maxConfigSize : Nat) : SystemM σ (List UInt8) := do
  let _ ← orShutdown server now (onStream (structuredStreamReadBytesInplace hashLength))
  let clusterConfig ← orShutdown server now (onStream structuredStreamReadUint16PrefixedBytesInplace)
  if maxConfigSize < clusterConfig.length then throw (.code (.res 1))
  else pure clusterConfig

/-- What the server sends of its configuration. -/
def System.sentConfig (sys : System σ) : List UInt8 := prefixedText (sys.conn.clusterConfig.getD [])

theorem System.sentConfig_length (sys : System σ) : sys.sentConfig.length < 2 ^ 16 := by
  rw [System.sentConfig, prefixedText_length]
  exact Nat.mod_lt _ (by decide)

/-- The server answers with the hash, the configuration and a status. -/
theorem handleConnGetClusterConfig_exchanges {data : Conn σ} (hashed : data.clusterConfigHash.length = hashLength) :
    ∀ ss : Stream, ss.Valid → connBufSize ≤ ss.writeBufSize → ∃ after : Stream,
      (handleConnGetClusterConfig : ConnM σ Unit) { data with ss } = .ok () { data with ss := after } ∧
        ss.Moved after []
          (data.clusterConfigHash ++ (prefixed (prefixedText (data.clusterConfig.getD [])) ++ bytesOf 1 0)) := by
  intro ss valid write
  have short : (prefixedText (data.clusterConfig.getD [])).length ≤ connBufSize := by
    rw [prefixedText_length]
    exact (Nat.mod_lt _ (by decide)).le.trans (by decide)
  have config := @exchanges_writeText 0 connBufSize (data.clusterConfig.getD []) short (by decide)
  have hashes : Exchanges 0 connBufSize (structuredStreamWriteBytes data.clusterConfigHash) [] data.clusterConfigHash () :=
    exchanges_writeBytes (by rw [hashed]; decide)
  have answers : Exchanges 0 connBufSize (do
      onStream (structuredStreamWriteBytes data.clusterConfigHash)
      onStream (structuredStreamWriteUint16PrefixedString (data.clusterConfig.getD []))
      onStream (structuredStreamWriteUint8 0)
      onStream structuredStreamFlush : ConnM σ Unit) ([] ++ ([] ++ ([] ++ [])))
      (data.clusterConfigHash ++ (prefixed (prefixedText (data.clusterConfig.getD [])) ++ (bytesOf 1 0 ++ []))) () :=
    hashes.on.bind (config.on.bind ((exchanges_writeUint 0 (by decide)).on.bind exchanges_flush.on))
  obtain ⟨after, run, moved⟩ := answers { data with ss } valid (Nat.zero_le _) write List.nil_prefix
  have run : (handleConnGetClusterConfig : ConnM σ Unit) { data with ss } = .ok () { data with ss := after } := by
    rw [handleConnGetClusterConfig, bind_ok (get_apply _)]
    exact run
  exact ⟨after, run, moved⟩

end

section
variable {σ : Type} {server : Server σ} {now : Int} {sys : System σ}

theorem menoetiusClientGetConfig_eq (maxConfigSize : Nat) :
    menoetiusClientGetConfig server now maxConfigSize =
      clientCall server now (orShutdown server now (onStream (structuredStreamWriteUint8 rpcGetClusterConfig)))
        (getConfigResponse server now maxConfigSize) := rfl

/-- The status stays behind a configuration that is read. -/
theorem getConfigResponse_ends {hash config : List UInt8} (hashed : hash.length = hashLength)
    (short : config.length < 2 ^ 16) (answered : sys.Answered (hash ++ (prefixed config ++ bytesOf 1 0)))
    (size : sys.client.readBufSize = clientBufSize) (maxConfigSize : Nat) :
    FramedUnless (config.length + 2 ≤ clientBufSize) (getConfigResponse server now maxConfigSize) sys := by
  have first : Exchanges clientBufSize 0 (orShutdown server now (onStream (structuredStreamReadBytesInplace hashLength)))
      hash [] hash := by
    rw [← hashed]
    exact (exchanges_readBytesInplace (by rw [hashed]; decide)).on.orShutdown server now
  obtain ⟨ss, readHash, left⟩ := answered.receive first
  refine ends_bind_ok readHash ?_
  by_cases fits : config.length + 2 ≤ clientBufSize
  · obtain ⟨final, readConfig, status⟩ := left.receive ((exchanges_readPrefixed short fits).on.orShutdown server now)
    refine ends_bind_ok readConfig ?_
    have unframed := iff_of_false (status.unframed (by decide)) (not_not_intro fits)
    by_cases large : maxConfigSize < config.length
    · rw [if_pos large]
      exact ends_of_error (throw_apply _ _) fun _ => unframed
    · rw [if_neg large]
      exact ends_of_ok (pure_apply _ _) unframed
  · have bufSize : ss.readBufSize = clientBufSize := left.read.trans size
    obtain ⟨final, failed⟩ := @readPrefixed_large ss config (bytesOf 1 0) left.client short (by rw [bufSize]; decide)
      (by rw [bufSize]; exact Nat.not_le.mp fits) left.answered
    have closes : (orShutdown server now (onStream structuredStreamReadUint16PrefixedBytesInplace)).Ends
        (withStream sys ss) (fun _ _ => False) fun failure after => failure.IsCode → after.client.connected = false :=
      orShutdown_ends (ends_of_error (onStream_error failed) trivial)
    refine LeavesFramed.unless ((closes.mono (fun _ _ never => never) ?_).bind fun _ _ never => never.elim) fits
    exact fun _ _ closed code => .of_closed (closed code)

theorem menoetiusClientGetConfig_framed {invariant : σ → Prop} (idle : sys.Idle) (sound : sys.conn.Sound invariant)
    (size : sys.client.readBufSize = clientBufSize) (maxConfigSize : Nat) :
    FramedUnless (sys.sentConfig.length + 2 ≤ clientBufSize) (menoetiusClientGetConfig server now maxConfigSize) sys := by
  have sends : Exchanges 0 clientBufSize
      (orShutdown server now (onStream (structuredStreamWriteUint8 rpcGetClusterConfig))) []
      (bytesOf 1 rpcGetClusterConfig ++ []) () := (exchanges_writeUint _ (by decide)).on.orShutdown server now
  rw [menoetiusClientGetConfig_eq]
  refine clientCall_ends server now idle (by decide) (fun _ _ code => False.elim code)
    (fun ready isReady _ => isReady.sends sends) fun data same serving _ => ?_
  have config : prefixedText (data.clusterConfig.getD []) = sys.sentConfig := by
    rw [System.sentConfig, ← same.clusterConfig]
  have hashed : data.clusterConfigHash.length = hashLength := same.clusterConfigHash ▸ sound.hash
  obtain ⟨after, run, moved⟩ := handleConnGetClusterConfig_exchanges hashed data.ss serving.valid serving.write
  have run : (handleConnGetClusterConfig : ConnM σ Unit) data = .ok () { data with ss := after } := run
  refine ends_of_ok run ⟨_, moved, ?_, fun final answered client => ?_⟩
  · rw [handleConnGetClusterConfig, bind_ok (get_apply _)] at run
    obtain ⟨_, _, _, run⟩ := of_bind_ok run
    obtain ⟨_, _, _, run⟩ := of_bind_ok run
    exact written_of_flush run
  · rw [config] at answered
    exact getConfigResponse_ends hashed sys.sentConfig_length answered (client.readBufSize.trans size) maxConfigSize

end

end Menoetius
