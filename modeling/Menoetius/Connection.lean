import Menoetius.WirePut

/-
This file follows a call of a client over its connection.
-/

namespace Menoetius
open LittleEndian HasStream

/-- The default size of the client's buffers. -/
def clientBufSize : Nat := 1024

/-- The default size of the server's buffers. -/
def connBufSize : Nat := 128 * 1024

/-- The client sends the header first. -/
def greeting (greeted : Bool) : List UInt8 := if greeted then [] else bytesOf 8 rpcMagicHeader

namespace System

variable {σ : Type}

/-- The buffers have their default sizes or larger ones. -/
structure Sized (sys : System σ) : Prop where
  read : clientBufSize ≤ sys.client.readBufSize
  write : clientBufSize ≤ sys.client.writeBufSize
  serverRead : connBufSize ≤ sys.conn.ss.readBufSize
  serverWrite : connBufSize ≤ sys.conn.ss.writeBufSize

/-- The buffers of an open connection. The server has read all bytes that have arrived. -/
structure Open (sys : System σ) : Prop where
  sized : sys.Sized
  connected : sys.client.connected = true
  open' : sys.closed = false
  client : sys.client.ss.Valid
  server : sys.conn.ss.Valid
  read : sys.client.ss.readBufSize = sys.client.readBufSize
  write : sys.client.ss.writeBufSize = sys.client.writeBufSize
  served : sys.conn.ss.input = []
  replied : sys.conn.ss.output = []

/-- A call can start: no bytes are on their way, but for the header. -/
structure Ready (sys : System σ) : Prop extends Open sys where
  answered : sys.client.ss.input = []
  sent : sys.client.ss.output = greeting sys.greeted

/-- A request has left the client. -/
structure Sent (sys : System σ) (request : List UInt8) : Prop extends Open sys where
  answered : sys.client.ss.input = []
  sent : sys.client.ss.outgoing = greeting sys.greeted ++ request
  flushed : sys.client.ss.written = []

/-- A response has arrived at the client. -/
structure Answered (sys : System σ) (response : List UInt8) : Prop extends Open sys where
  greeted : sys.greeted = true
  answered : sys.client.ss.input = response
  sent : sys.client.ss.output = []

/-- Between two calls both ends of an open connection have read all bytes of the other end. -/
structure Idle (sys : System σ) : Prop where
  sized : sys.Sized
  answered : sys.client.connected = true → sys.Answered []

theorem Sized.withStream {sys : System σ} (sized : sys.Sized) (ss : Stream) : (withStream sys ss).Sized :=
  ⟨sized.read, sized.write, sized.serverRead, sized.serverWrite⟩

theorem Answered.idle {sys : System σ} (answered : sys.Answered []) : sys.Idle :=
  ⟨answered.sized, fun _ => answered⟩

theorem Answered.ready {sys : System σ} (answered : sys.Answered []) : sys.Ready :=
  ⟨answered.toOpen, answered.answered, by rw [answered.sent, answered.greeted]; rfl⟩

/-- The queue and the sizes of a client. -/
structure SameClient (sys after : System σ) : Prop where
  readBufSize : after.client.readBufSize = sys.client.readBufSize
  writeBufSize : after.client.writeBufSize = sys.client.writeBufSize
  queuedMetrics : after.client.queuedMetrics = sys.client.queuedMetrics
  queuedMetricsMaxSize : after.client.queuedMetricsMaxSize = sys.client.queuedMetricsMaxSize
  numQueuedMetrics : after.client.numQueuedMetrics = sys.client.numQueuedMetrics
  numQueuedMetricsFlush : after.client.numQueuedMetricsFlush = sys.client.numQueuedMetricsFlush

theorem SameClient.refl (sys : System σ) : sys.SameClient sys := ⟨rfl, rfl, rfl, rfl, rfl, rfl⟩

theorem SameClient.trans {first second third : System σ} (start : first.SameClient second)
    (rest : second.SameClient third) : first.SameClient third :=
  ⟨rest.readBufSize.trans start.readBufSize, rest.writeBufSize.trans start.writeBufSize,
    rest.queuedMetrics.trans start.queuedMetrics, rest.queuedMetricsMaxSize.trans start.queuedMetricsMaxSize,
    rest.numQueuedMetrics.trans start.numQueuedMetrics, rest.numQueuedMetricsFlush.trans start.numQueuedMetricsFlush⟩

theorem sameClient_withStream (sys : System σ) (ss : Stream) : sys.SameClient (withStream sys ss) :=
  ⟨rfl, rfl, rfl, rfl, rfl, rfl⟩

/-- The data of the server. -/
structure SameStore (conn after : Conn σ) : Prop where
  storage : after.storage = conn.storage
  clusterConfig : after.clusterConfig = conn.clusterConfig
  clusterConfigHash : after.clusterConfigHash = conn.clusterConfigHash

end System

section
variable {σ α : Type} (server : Server σ) (now : Int)

theorem orShutdown_ok {action : SystemM σ α} {sys after : System σ} {value : α}
    (run : action sys = .ok value after) : orShutdown server now action sys = .ok value after := by
  rw [orShutdown, run]

/-- A step that succeeds keeps the connection. -/
theorem Exchanges.orShutdown {readSize writeSize : Nat} {action : SystemM σ α} {taken added : List UInt8} {value : α}
    (exchanges : Exchanges readSize writeSize action taken added value) :
    Exchanges readSize writeSize (orShutdown server now action) taken added value := by
  intro sys valid read write part
  obtain ⟨after, run, moved⟩ := exchanges sys valid read write part
  exact ⟨after, orShutdown_ok server now run, moved⟩

theorem menoetiusClientEnsureConnected_run {sys : System σ} (idle : sys.Idle) :
    ∃ after, menoetiusClientEnsureConnected server now sys = .ok () after ∧ after.Ready ∧
      System.SameStore sys.conn after.conn ∧ sys.SameClient after := by
  unfold menoetiusClientEnsureConnected
  rw [EStateM.bind_ok (EStateM.get_apply sys)]
  by_cases connected : sys.client.connected
  · rw [if_pos connected]
    exact ⟨sys, rfl, (idle.answered connected).ready, ⟨rfl, rfl, rfl⟩, .refl sys⟩
  · rw [if_neg connected, EStateM.bind_ok (EStateM.set_apply _ _)]
    have large := idle.sized.write
    unfold clientBufSize at large
    have header : Exchanges 0 8 (orShutdown server now (onStream (structuredStreamWriteUint64 rpcMagicHeader))) []
        (bytesOf 8 rpcMagicHeader) () := (exchanges_writeUint _ le_rfl).on.orShutdown server now
    let fresh : System σ :=
      { client := { sys.client with
          connected := true
          ss := { structuredStreamInit sys.client.ss with
            readBufSize := sys.client.readBufSize, writeBufSize := sys.client.writeBufSize } }
        conn := { sys.conn with ss := structuredStreamInit sys.conn.ss, hasValidConfig := false }
        greeted := false
        closed := false }
    obtain ⟨ss, run, moved⟩ := header fresh ⟨Nat.zero_le _, Nat.zero_le _⟩ (Nat.zero_le _)
      (show 8 ≤ sys.client.writeBufSize by omega) List.nil_prefix
    have opened : (withStream fresh ss).Open :=
      ⟨⟨idle.sized.read, idle.sized.write, idle.sized.serverRead, idle.sized.serverWrite⟩, rfl, rfl, moved.valid,
        ⟨Nat.zero_le _, Nat.zero_le _⟩, moved.readBufSize, moved.writeBufSize, rfl, rfl⟩
    exact ⟨_, run, ⟨opened, moved.input.symm, moved.output⟩, ⟨rfl, rfl, rfl⟩, ⟨rfl, rfl, rfl, rfl, rfl, rfl⟩⟩

/-- The server reads the header of a new connection. -/
theorem handleConnRpcEntry_exchanges :
    Exchanges connBufSize 0 (handleConnRpcEntry : ConnM σ Unit) (bytesOf 8 rpcMagicHeader) [] () := by
  have number : Exchanges connBufSize 0 (onStream structuredStreamReadUint64 : ConnM σ Nat) (bytesOf 8 rpcMagicHeader) []
      rpcMagicHeader := (exchanges_readUint (by decide) (by decide)).on
  have both : Exchanges connBufSize 0 (handleConnRpcEntry : ConnM σ Unit) (bytesOf 8 rpcMagicHeader ++ []) [] () := by
    refine number.bind ?_
    rw [if_neg (not_not_intro rfl)]
    exact exchanges_pure ()
  rw [List.append_nil] at both
  exact both

section
variable {sys : System σ} {rounds : Nat}

theorem connHandlerThreadRun_idle (served : sys.conn.ss.input = []) :
    connHandlerThreadRun server now rounds sys = .ok () sys := by
  cases rounds with
  | zero => rfl
  | succ rounds =>
      unfold connHandlerThreadRun
      rw [if_pos (Or.inr served)]

theorem connHandlerThreadRun_greeting (new : sys.greeted = false) (opened : sys.closed = false)
    (valid : sys.conn.ss.Valid) (read : connBufSize ≤ sys.conn.ss.readBufSize)
    (part : bytesOf 8 rpcMagicHeader <+: sys.conn.ss.input) :
    ∃ ss, sys.conn.ss.Moved ss (bytesOf 8 rpcMagicHeader) [] ∧
      connHandlerThreadRun server now (rounds + 1) sys =
        connHandlerThreadRun server now rounds { sys with conn := { sys.conn with ss }, greeted := true } := by
  obtain ⟨ss, run, moved⟩ := handleConnRpcEntry_exchanges sys.conn valid read (Nat.zero_le _) part
  have some : sys.conn.ss.input ≠ [] := by
    intro none
    rw [none] at part
    exact absurd part.length_le (by decide)
  refine ⟨ss, moved, ?_⟩
  conv_lhs => unfold connHandlerThreadRun
  rw [if_neg (by rw [opened]; simpa using some)]
  simp only [new, Bool.false_eq_true, if_false]
  rw [run]
  rfl

/-- What the server does with the next call. -/
theorem connHandlerThreadRun_rpc {code : Nat} {body : List UInt8} (old : sys.greeted = true) (opened : sys.closed = false)
    (valid : sys.conn.ss.Valid) (read : connBufSize ≤ sys.conn.ss.readBufSize) (small : code < 256)
    (input : sys.conn.ss.input = bytesOf 1 code ++ body) :
    ∃ ss, sys.conn.ss.Moved ss (bytesOf 1 code) [] ∧
      connHandlerThreadRun server now (rounds + 1) sys =
        match handleConnRpc server.calls now server.gitCommit server.buildTime code { sys.conn with ss } with
        | .ok _ conn => connHandlerThreadRun server now rounds { sys with conn, greeted := true }
        | .error (.code _) conn => .ok () { sys with conn, greeted := true, closed := true }
        | .error (.abort site) conn => .error (.abort site) { sys with conn, greeted := true } := by
  have part : bytesOf 1 code <+: sys.conn.ss.input := ⟨body, input.symm⟩
  have number : Exchanges connBufSize 0 (onStream structuredStreamReadUint8 : ConnM σ Nat) (bytesOf 1 code) [] code :=
    (exchanges_readUint (by decide) (by simpa using small)).on
  obtain ⟨ss, run, moved⟩ := number sys.conn valid read (Nat.zero_le _) part
  have some : sys.conn.ss.input ≠ [] := by
    intro none
    rw [none] at part
    exact absurd part.length_le (by rw [bytesOf_length]; decide)
  refine ⟨ss, moved, ?_⟩
  conv_lhs => unfold connHandlerThreadRun
  rw [if_neg (by rw [opened]; simpa using some)]
  simp only [old, if_true]
  unfold handleConnRpcCode
  rw [EStateM.bind_ok run]
  rfl

end

/-- The server's stream when a handler starts. -/
structure Stream.Serving (ss : Stream) (body : List UInt8) : Prop where
  valid : ss.Valid
  input : ss.input = body
  output : ss.output = []
  read : connBufSize ≤ ss.readBufSize
  write : connBufSize ≤ ss.writeBufSize

theorem Stream.Serving.of_moved {first after : Stream} {taken body : List UInt8} (moved : first.Moved after taken [])
    (output : first.output = []) (read : connBufSize ≤ first.readBufSize) (write : connBufSize ≤ first.writeBufSize)
    (input : first.input = taken ++ body) : after.Serving body := by
  refine ⟨moved.valid, ?_, ?_, moved.readBufSize ▸ read, moved.writeBufSize ▸ write⟩
  · rw [moved.input] at input
    exact List.append_cancel_left input
  · rw [moved.output, output, List.append_nil]

/-- A handler that takes the whole body and flushes its response leaves nothing behind. -/
theorem Stream.Serving.done {ss after : Stream} {body response : List UInt8} (serving : ss.Serving body)
    (moved : ss.Moved after body response) (flushed : after.written = []) :
    after.input = [] ∧ after.outgoing = response := by
  have input := moved.input
  have output := moved.output
  rw [serving.input] at input
  rw [serving.output, Stream.output, flushed, List.append_nil, List.nil_append] at output
  exact ⟨List.self_eq_append_right.mp input, output⟩

/-- The server starts the handler of a call on the body of the call. -/
theorem connHandlerThreadRun_call {sys : System σ} {code : Nat} {body : List UInt8}
    (sent : sys.Sent (bytesOf 1 code ++ body)) (small : code < 256) :
    ∃ (ss : Stream) (rounds : Nat), ss.Serving body ∧ ss.writeBufSize = sys.conn.ss.writeBufSize ∧
      connHandlerThreadRun server now (sys.deliver.conn.ss.input.length + 1) sys.deliver =
        match handleConnRpc server.calls now server.gitCommit server.buildTime code { sys.conn with ss } with
        | .ok _ conn => connHandlerThreadRun server now rounds { sys.deliver with conn, greeted := true }
        | .error (.code _) conn => .ok () { sys.deliver with conn, greeted := true, closed := true }
        | .error (.abort site) conn => .error (.abort site) { sys.deliver with conn, greeted := true } := by
  have input : sys.deliver.conn.ss.input = greeting sys.greeted ++ (bytesOf 1 code ++ body) := by
    have none := sent.served
    rw [Stream.input] at none
    change sys.conn.ss.unread ++ (sys.conn.ss.incoming ++ sys.client.ss.outgoing) = _
    rw [← List.append_assoc, none, sent.sent, List.nil_append]
  have valid : sys.deliver.conn.ss.Valid := ⟨sent.server.unread, sent.server.written⟩
  cases greeted : sys.greeted with
  | true =>
      rw [greeted] at input
      obtain ⟨ss, moved, run⟩ := @connHandlerThreadRun_rpc σ server now sys.deliver sys.deliver.conn.ss.input.length code
        body greeted sent.open' valid sent.sized.serverRead small input
      exact ⟨ss, _, .of_moved moved sent.replied sent.sized.serverRead sent.sized.serverWrite input, moved.writeBufSize,
        run⟩
  | false =>
      rw [greeted] at input
      obtain ⟨first, greets, begun⟩ := @connHandlerThreadRun_greeting σ server now sys.deliver
        sys.deliver.conn.ss.input.length greeted sent.open' valid sent.sized.serverRead ⟨_, input.symm⟩
      have left : first.input = bytesOf 1 code ++ body := by
        rw [greets.input] at input
        exact List.append_cancel_left input
      have output : first.output = [] := by
        rw [greets.output, List.append_nil]
        exact sent.replied
      obtain ⟨rounds, long⟩ : ∃ rounds, sys.deliver.conn.ss.input.length = rounds + 1 := by
        refine Nat.exists_eq_add_one.mpr ?_
        rw [input, List.length_append]
        exact Nat.add_pos_left (by decide) _
      rw [begun, long]
      obtain ⟨ss, moved, run⟩ := @connHandlerThreadRun_rpc σ server now
        { sys.deliver with conn := { sys.deliver.conn with ss := first }, greeted := true } rounds code body rfl
        sent.open' greets.valid (greets.readBufSize ▸ sent.sized.serverRead) small left
      exact ⟨ss, rounds, .of_moved moved output (greets.readBufSize ▸ sent.sized.serverRead)
        (greets.writeBufSize ▸ sent.sized.serverWrite) left, moved.writeBufSize.trans greets.writeBufSize, run⟩

/-- The handler of a call runs once. -/
theorem awaitServer_run {sys : System σ} {code : Nat} {body : List UInt8} (sent : sys.Sent (bytesOf 1 code ++ body))
    (small : code < 256) :
    ∃ ss : Stream, ss.Serving body ∧ ss.writeBufSize = sys.conn.ss.writeBufSize ∧
      (∀ conn, handleConnRpc server.calls now server.gitCommit server.buildTime code { sys.conn with ss } =
        .ok () conn → conn.ss.input = [] →
          awaitServer server now sys = .ok () ({ sys.deliver with conn, greeted := true } : System σ).answer) ∧
      (∀ err conn, handleConnRpc server.calls now server.gitCommit server.buildTime code { sys.conn with ss } =
        .error (.code err) conn →
          awaitServer server now sys =
            .ok () ({ sys.deliver with conn, greeted := true, closed := true } : System σ).answer) ∧
      ∀ site conn, handleConnRpc server.calls now server.gitCommit server.buildTime code { sys.conn with ss } =
        .error (.abort site) conn → ∃ after, awaitServer server now sys = .error (.abort site) after := by
  obtain ⟨ss, rounds, serving, size, run⟩ := connHandlerThreadRun_call server now sent small
  refine ⟨ss, serving, size, fun conn ok none => ?_, fun err conn failed => ?_, fun site conn stopped => ?_⟩
  · rw [ok] at run
    have run := run.trans (@connHandlerThreadRun_idle σ server now { sys.deliver with conn, greeted := true } rounds none)
    unfold awaitServer
    rw [EStateM.bind_ok (EStateM.modify_apply _ _), EStateM.bind_ok (EStateM.get_apply _), EStateM.bind_ok run]
    rfl
  · rw [failed] at run
    unfold awaitServer
    rw [EStateM.bind_ok (EStateM.modify_apply _ _), EStateM.bind_ok (EStateM.get_apply _), EStateM.bind_ok run]
    rfl
  · rw [stopped] at run
    unfold awaitServer
    rw [EStateM.bind_ok (EStateM.modify_apply _ _), EStateM.bind_ok (EStateM.get_apply _), EStateM.bind_error run]
    exact ⟨_, rfl⟩

/-- The client sends the bytes that it has written. -/
theorem System.Ready.flush {sys : System σ} (ready : sys.Ready) {written : Stream} {request : List UInt8}
    (moved : sys.client.ss.Moved written [] request) :
    ∃ ss, orShutdown server now (onStream structuredStreamFlush) (withStream sys written) =
        .ok () (withStream sys ss) ∧ (withStream sys ss).Sent request := by
  obtain ⟨flushed, sent, moved', none⟩ := structuredStreamFlush_run moved.valid
  have all := moved.trans moved'
  have output : flushed.outgoing = greeting sys.greeted ++ request := by
    have output := all.output
    rw [Stream.output, none, List.append_nil, List.append_nil, ready.sent] at output
    exact output
  refine ⟨flushed, orShutdown_ok server now (onStream_ok sent), ⟨⟨ready.sized.withStream flushed, ready.connected,
    ready.open', all.valid, ready.server, ?_, ?_, ready.served, ready.replied⟩, ?_, output, none⟩⟩
  · exact all.readBufSize.trans ready.read
  · exact all.writeBufSize.trans ready.write
  · exact all.input.symm.trans ready.answered

/-- The client sends a request. -/
theorem System.Ready.send {sys : System σ} (ready : sys.Ready) {send : SystemM σ Unit} {request : List UInt8}
    (sends : Exchanges 0 clientBufSize send [] request ()) (next : Unit → SystemM σ α) :
    ∃ ss, (send >>= fun _ => orShutdown server now (onStream structuredStreamFlush) >>= next) sys =
        next () (withStream sys ss) ∧ (withStream sys ss).Sent request := by
  obtain ⟨written, run, moved⟩ := sends sys ready.client (Nat.zero_le _)
    (ready.sized.write.trans ready.write.ge) List.nil_prefix
  have moved : sys.client.ss.Moved written [] request := moved
  obtain ⟨ss, flushed, sent⟩ := ready.flush server now moved
  exact ⟨ss, by rw [EStateM.bind_ok run, EStateM.bind_ok flushed], sent⟩

/-- The response of a handler arrives at the client. -/
theorem System.Sent.answer {sys : System σ} {request : List UInt8} (sent : sys.Sent request) {conn : Conn σ}
    (valid : conn.ss.Valid) (read : connBufSize ≤ conn.ss.readBufSize) (write : connBufSize ≤ conn.ss.writeBufSize)
    (input : conn.ss.input = []) (flushed : conn.ss.written = []) :
    ({ sys.deliver with conn, greeted := true } : System σ).answer.Answered conn.ss.outgoing := by
  have none := sent.answered
  have incoming : sys.client.ss.unread ++ sys.client.ss.incoming = [] := none
  refine ⟨⟨⟨sent.sized.read, sent.sized.write, read, write⟩, sent.connected, sent.open',
    ⟨sent.client.unread, sent.client.written⟩, ⟨valid.unread, valid.written⟩, sent.read, sent.write, input, ?_⟩, rfl,
    ?_, ?_⟩
  · change [] ++ conn.ss.written = []
    rw [flushed, List.append_nil]
  · change sys.client.ss.unread ++ (sys.client.ss.incoming ++ conn.ss.outgoing) = conn.ss.outgoing
    rw [← List.append_assoc, incoming, List.nil_append]
  · change [] ++ sys.client.ss.written = []
    rw [sent.flushed, List.append_nil]

/-- The client reads a part of the response. -/
theorem System.Answered.receive {sys : System σ} {response rest : List UInt8} {action : SystemM σ α} {value : α}
    (answered : sys.Answered (response ++ rest)) (reads : Exchanges clientBufSize 0 action response [] value) :
    ∃ ss, action sys = .ok value (withStream sys ss) ∧ (withStream sys ss).Answered rest := by
  obtain ⟨ss, run, moved⟩ := reads sys answered.client (answered.sized.read.trans answered.read.ge) (Nat.zero_le _)
    ⟨rest, answered.answered.symm⟩
  have moved : sys.client.ss.Moved ss response [] := moved
  refine ⟨ss, run, ⟨⟨answered.sized.withStream ss, answered.connected, answered.open', moved.valid, answered.server, ?_, ?_,
    answered.served, answered.replied⟩, answered.greeted, ?_, ?_⟩⟩
  · exact moved.readBufSize.trans answered.read
  · exact moved.writeBufSize.trans answered.write
  · have input := moved.input
    rw [answered.answered] at input
    exact (List.append_cancel_left input).symm
  · have output := moved.output
    rw [answered.sent] at output
    exact output

/-- A call of a client: a request is sent, and a response is received. -/
def clientCall (send : SystemM σ Unit) (receive : SystemM σ α) : SystemM σ α := do
  menoetiusClientEnsureConnected server now
  send
  orShutdown server now (onStream structuredStreamFlush)
  awaitServer server now
  receive

/-- The client receives what the handler of its call has written. -/
theorem System.Sent.call_run {sys : System σ} {code : Nat} {body : List UInt8} (sent : sys.Sent (bytesOf 1 code ++ body))
    (small : code < 256) (receive : SystemM σ α) :
    ∃ data : Conn σ, System.SameStore sys.conn data ∧ data.ss.Serving body ∧
      (∀ conn response, handleConnRpc server.calls now server.gitCommit server.buildTime code data = .ok () conn →
        data.ss.Moved conn.ss body response → conn.ss.written = [] →
          ∃ after, (awaitServer server now >>= fun _ => receive) sys = receive after ∧ after.Answered response ∧
            System.SameStore conn after.conn ∧ sys.SameClient after) ∧
      (∀ err conn, handleConnRpc server.calls now server.gitCommit server.buildTime code data =
        .error (.code err) conn →
          ∃ after, (awaitServer server now >>= fun _ => receive) sys = receive after ∧
            after.client.ss.input = conn.ss.outgoing) ∧
      ∀ site conn, handleConnRpc server.calls now server.gitCommit server.buildTime code data =
        .error (.abort site) conn →
          ∃ after, (awaitServer server now >>= fun _ => receive) sys = .error (.abort site) after := by
  obtain ⟨serving, start, _, good, bad, stops⟩ := awaitServer_run server now sent small
  refine ⟨{ sys.conn with ss := serving }, ⟨rfl, rfl, rfl⟩, start, fun conn response ok moved flushed => ?_,
    fun err conn failed => ?_, fun site conn stopped => ?_⟩
  · obtain ⟨input, outgoing⟩ := start.done moved flushed
    have answered := sent.answer moved.valid (moved.readBufSize ▸ start.read) (moved.writeBufSize ▸ start.write) input
      flushed
    rw [outgoing] at answered
    exact ⟨_, EStateM.bind_ok (good conn ok input) _, answered, ⟨rfl, rfl, rfl⟩, ⟨rfl, rfl, rfl, rfl, rfl, rfl⟩⟩
  · refine ⟨_, EStateM.bind_ok (bad err conn failed) _, ?_⟩
    have none : sys.client.ss.unread ++ sys.client.ss.incoming = [] := sent.answered
    change sys.client.ss.unread ++ (sys.client.ss.incoming ++ conn.ss.outgoing) = conn.ss.outgoing
    rw [← List.append_assoc, none, List.nil_append]
  · obtain ⟨after, run⟩ := stops site conn stopped
    exact ⟨after, EStateM.bind_error run _⟩

/-- The whole call, when the request fits the buffers of the client. -/
theorem clientCall_run {sys : System σ} (idle : sys.Idle) {send : SystemM σ Unit} {code : Nat} {body : List UInt8}
    (sends : Exchanges 0 clientBufSize send [] (bytesOf 1 code ++ body) ()) (small : code < 256)
    (receive : SystemM σ α) :
    ∃ data : Conn σ, System.SameStore sys.conn data ∧ data.ss.Serving body ∧
      (∀ conn response, handleConnRpc server.calls now server.gitCommit server.buildTime code data = .ok () conn →
        data.ss.Moved conn.ss body response → conn.ss.written = [] →
          ∃ after, clientCall server now send receive sys = receive after ∧ after.Answered response ∧
            System.SameStore conn after.conn ∧ sys.SameClient after) ∧
      ∀ site conn, handleConnRpc server.calls now server.gitCommit server.buildTime code data =
        .error (.abort site) conn → ∃ after, clientCall server now send receive sys = .error (.abort site) after := by
  obtain ⟨ready, connects, isReady, sameStore, sameClient⟩ := menoetiusClientEnsureConnected_run server now idle
  obtain ⟨ss, begins, sent⟩ := isReady.send server now sends fun _ => awaitServer server now >>= fun _ => receive
  obtain ⟨data, same, serving, good, _, stops⟩ := sent.call_run server now small receive
  have begins : clientCall server now send receive sys =
      (awaitServer server now >>= fun _ => receive) (withStream ready ss) := by
    unfold clientCall
    rw [EStateM.bind_ok connects, begins]
  have sameClient : sys.SameClient (withStream ready ss) := sameClient.trans (System.sameClient_withStream ready ss)
  rw [begins]
  refine ⟨data, ⟨same.storage.trans sameStore.storage, same.clusterConfig.trans sameStore.clusterConfig,
    same.clusterConfigHash.trans sameStore.clusterConfigHash⟩, serving, fun conn response ok moved flushed => ?_, stops⟩
  obtain ⟨after, run, answered, store, client⟩ := good conn response ok moved flushed
  exact ⟨after, run, answered, store, sameClient.trans client⟩

end

end Menoetius
