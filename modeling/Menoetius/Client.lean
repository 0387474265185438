import Menoetius.ConnHandler

/-
This file models a client, and the server that answers it.
-/

namespace Menoetius
open LittleEndian

structure Client where
  readBufSize : Nat
  writeBufSize : Nat
  /-- The socket is open. -/
  connected : Bool
  ss : Stream
  /-- The first `queued_metrics_len` bytes of the queue. -/
  queuedMetrics : List UInt8
  queuedMetricsMaxSize : Nat
  numQueuedMetrics : Nat
  numQueuedMetricsFlush : Nat

def menoetiusClientInit (arrived : Nat → Nat) : Client where
  readBufSize := 1024
  writeBufSize := 1024
  connected := false
  ss := structuredStreamNew 0 0 arrived
  queuedMetrics := []
  queuedMetricsMaxSize := 16384
  numQueuedMetrics := 0
  numQueuedMetricsFlush := 1000

/-- A client, its connection and the server. -/
structure System (σ : Type) where
  client : Client
  conn : Conn σ
  /-- The server has read the magic header of the connection. -/
  greeted : Bool
  /-- The server has closed the connection. -/
  closed : Bool

abbrev SystemM (σ : Type) := EStateM Failure (System σ)

/-- A new connection starts with empty buffers. -/
def structuredStreamInit (ss : Stream) : Stream :=
  { ss with unread := [], written := [], incoming := [], outgoing := [] }

/-- The stream of the client. -/
instance {σ : Type} : HasStream (System σ) where
  stream := fun sys => sys.client.ss
  withStream := fun sys ss => { sys with client := { sys.client with ss } }
  stream_withStream := fun _ _ => rfl
  withStream_withStream := fun _ _ _ => rfl
  withStream_stream := fun _ => rfl

/-- The bytes that the client has sent arrive at the server. -/
def System.deliver {σ : Type} (sys : System σ) : System σ :=
  { sys with
    client := { sys.client with ss := { sys.client.ss with outgoing := [] } }
    conn := { sys.conn with ss := { sys.conn.ss with incoming := sys.conn.ss.incoming ++ sys.client.ss.outgoing } } }

/-- The bytes that the server has sent arrive at the client. -/
def System.answer {σ : Type} (sys : System σ) : System σ :=
  { sys with
    client := { sys.client with
      ss := { sys.client.ss with incoming := sys.client.ss.incoming ++ sys.conn.ss.outgoing } }
    conn := { sys.conn with ss := { sys.conn.ss with outgoing := [] } } }

/-- The server behind the connection. -/
structure Server (σ : Type) where
  calls : StorageCalls σ
  gitCommit : List UInt8
  buildTime : List UInt8

/-- The bytes of a put or get request for points. -/
def writePoints : List Point → StreamM Unit
  | [] => pure ()
  | point :: rest => do
      structuredStreamWriteUint64 point.1.toNat
      structuredStreamWriteDouble point.2
      writePoints rest

def readPoints : Nat → StreamM (List Point)
  | 0 => pure []
  | numPts + 1 => do
      let t ← structuredStreamReadInt64
      let y ← structuredStreamReadDouble
      let rest ← readPoints numPts
      pure ((t, y) :: rest)

/-- The flag for an old configuration is ignored. -/
def serverResponse (status : Nat) : Nat := status &&& 0x7f

section
variable {σ : Type} (server : Server σ) (now : Int)

/-- The loop of `conn_handler_thread_run`, until the server waits for the next bytes. -/
def connHandlerThreadRun : Nat → SystemM σ Unit
  | 0 => pure ()
  | rounds + 1 => fun sys =>
      if sys.closed ∨ sys.conn.ss.input = [] then .ok () sys
      else
        let step := if sys.greeted then handleConnRpcCode server.calls now server.gitCommit server.buildTime
          else handleConnRpcEntry
        match step sys.conn with
        | .ok _ conn => connHandlerThreadRun rounds { sys with conn, greeted := true }
        | .error (.code _) conn => .ok () { sys with conn, closed := true }
        | .error (.abort site) conn => .error (.abort site) { sys with conn }

/-- The server works while the client waits. -/
def awaitServer : SystemM σ Unit := do
  modify System.deliver
  let sys ← get
  connHandlerThreadRun server now (sys.conn.ss.input.length + 1)
  modify System.answer

/-- The server still gets the bytes that were sent before the socket was closed. -/
def menoetiusClientShutdown : SystemM σ Unit := do
  awaitServer server now
  modify fun sys => { sys with client := { sys.client with connected := false } }

def orShutdown {α : Type} (action : SystemM σ α) : SystemM σ α := fun sys =>
  match action sys with
  | .error (.code err) after =>
      match menoetiusClientShutdown server now after with
      | .ok _ after => .error (.code err) after
      | .error failure after => .error failure after
  | result => result

def menoetiusClientEnsureConnected : SystemM σ Unit := do
  let sys ← get
  if sys.client.connected then pure ()
  else do
    set { sys with
      client := { sys.client with
        connected := true
        ss := { structuredStreamInit sys.client.ss with
          readBufSize := sys.client.readBufSize, writeBufSize := sys.client.writeBufSize } }
      conn := { sys.conn with ss := structuredStreamInit sys.conn.ss, hasValidConfig := false }
      greeted := false
      closed := false }
    orShutdown server now (onStream (structuredStreamWriteUint64 rpcMagicHeader))

/-- The code that ends most responses. -/
def readResponse : SystemM σ Nat := do
  let status ← onStream structuredStreamReadUint8
  pure (serverResponse status)

def menoetiusClientSendSync (key : List UInt8) (points : List Point) : SystemM σ Nat := do
  menoetiusClientEnsureConnected server now
  orShutdown server now (onStream (structuredStreamWriteUint8 rpcPutData))
  orShutdown server now (onStream (structuredStreamWriteUint16PrefixedBytes key))
  orShutdown server now (onStream (structuredStreamWriteUint32 points.length))
  onStream (writePoints points)
  onStream (structuredStreamWriteUint16PrefixedBytes [])
  orShutdown server now (onStream structuredStreamFlush)
  awaitServer server now
  readResponse

def chunkSize : Nat := 32768

/-- The queue in chunks. Each chunk has at least one byte, so that the length bounds the rounds. -/
def writeChunks : Nat → List UInt8 → StreamM Unit
  | 0, _ => pure ()
  | rounds + 1, bytes =>
      if bytes = [] then pure ()
      else do
        structuredStreamWriteBytes (bytes.take chunkSize)
        writeChunks rounds (bytes.drop chunkSize)

def menoetiusClientFlush : SystemM σ Nat := do
  menoetiusClientEnsureConnected server now
  orShutdown server now (onStream (structuredStreamWriteUint8 rpcPutData))
  let sys ← get
  orShutdown server now (onStream (writeChunks sys.client.queuedMetrics.length sys.client.queuedMetrics))
  onStream (structuredStreamWriteUint16PrefixedBytes [])
  orShutdown server now (onStream structuredStreamFlush)
  awaitServer server now
  let response ← readResponse
  if response = 0 then
    modify fun sys => { sys with client := { sys.client with queuedMetrics := [], numQueuedMetrics := 0 } }
  else pure ()
  pure response

/-- The size is doubled until there is room. Each round adds at least one byte. -/
def growLoop (needed : Nat) : Nat → Nat → Nat
  | 0, size => size
  | rounds + 1, size => if size < needed then growLoop needed rounds (size * 2) else size

/-- `my_realloc` keeps the content of the queue, so only the size of its memory changes. No other step reads the size. -/
def menoetiusClientGrowQueuedMetrics (minGrowth : Nat) (client : Client) : Client :=
  let needed := client.queuedMetrics.length + minGrowth
  { client with queuedMetricsMaxSize := growLoop needed needed client.queuedMetricsMaxSize }

def pointBytes (point : Point) : List UInt8 := bytesOf 8 point.1.toNat ++ bytesOf 8 point.2.toNat

/-- The queue holds requests as they are sent. Its length is an `int`. -/
def menoetiusClientSend (key : List UInt8) (points : List Point) : SystemM σ Nat := do
  let bytes := bytesOf 2 key.length ++ key ++ bytesOf 4 points.length ++ points.flatMap pointBytes
  let sys ← get
  require (sys.client.queuedMetrics.length + bytes.length < 2 ^ 31) .memory
  let client := menoetiusClientGrowQueuedMetrics bytes.length sys.client
  let num := client.numQueuedMetrics + 1
  set { sys with
    client := { client with queuedMetrics := client.queuedMetrics ++ bytes, numQueuedMetrics := num } }
  if client.numQueuedMetricsFlush ≤ num then menoetiusClientFlush server now else pure 0

/-- The result is the code of the server and the points. -/
def menoetiusClientGet (key : List UInt8) (maxNumPts : Nat) : SystemM σ (Nat × List Point) := do
  menoetiusClientEnsureConnected server now
  orShutdown server now (onStream (structuredStreamWriteUint8 rpcGetData))
  orShutdown server now (onStream (structuredStreamWriteUint16 1))
  orShutdown server now (onStream (structuredStreamWriteUint16PrefixedBytes key))
  orShutdown server now (onStream structuredStreamFlush)
  awaitServer server now
  orShutdown server now do
    let numPtsServer ← onStream structuredStreamReadUint32
    if maxNumPts < numPtsServer then throw (.code (.res 1))
    else do
      let points ← onStream (readPoints numPtsServer)
      let response ← readResponse
      pure (response, points)

def writeMatchers : List (List UInt8 × List UInt8) → StreamM Unit
  | [] => pure ()
  | (key, value) :: rest => do
      structuredStreamWriteUint16PrefixedString key
      structuredStreamWriteUint16PrefixedString value
      writeMatchers rest

def maxBinaryLfmSize : Nat := 1024

/-- The integer -1. -/
def minusOne : Err := .res (2 ^ 32 - 1)

/-- Each result takes at least two bytes, so that the input bounds the rounds. -/
def readResults (maxResults : Nat) : Nat → List (List UInt8) → SystemM σ (List (List UInt8))
  | 0, results => pure results
  | rounds + 1, results => do
      let rawLfm ← orShutdown server now (onStream structuredStreamReadUint16PrefixedBytesInplace)
      if rawLfm.length = 0 then pure results
      else if maxResults ≤ results.length then throw (.code minusOne)
      else if maxBinaryLfmSize ≤ rawLfm.length then throw (.code minusOne)
      else readResults maxResults rounds (results ++ [rawLfm])

/-- The result is the code of the server and the keys. -/
def menoetiusClientQuery (matchers : List (List UInt8 × List UInt8)) (allowFullScan : Bool) (maxResults : Nat) :
    SystemM σ (Nat × List (List UInt8)) := do
  menoetiusClientEnsureConnected server now
  orShutdown server now (onStream (structuredStreamWriteUint8 rpcQueryLfms))
  orShutdown server now (onStream (structuredStreamWriteUint8 (if allowFullScan then 1 else 0)))
  orShutdown server now (onStream (structuredStreamWriteUint8 matchers.length))
  orShutdown server now (onStream (writeMatchers matchers))
  orShutdown server now (onStream (structuredStreamWriteUint64 0))
  orShutdown server now (onStream (structuredStreamWriteUint64 1000))
  orShutdown server now (onStream structuredStreamFlush)
  awaitServer server now
  let sys ← get
  let results ← readResults server now maxResults (sys.client.ss.input.length + 1) []
  let _ ← orShutdown server now (onStream (if allowFullScan then structuredStreamReadUint64 else pure 0))
  let response ← orShutdown server now readResponse
  pure (response, results)

def menoetiusClientGetStatus : SystemM σ Nat := do
  menoetiusClientEnsureConnected server now
  orShutdown server now (onStream (structuredStreamWriteUint8 rpcGetStatus))
  orShutdown server now (onStream structuredStreamFlush)
  awaitServer server now
  orShutdown server now (onStream structuredStreamReadUint8)

def hashLength : Nat := 20

def menoetiusClientGetConfig (maxConfigSize : Nat) : SystemM σ (List UInt8) := do
  menoetiusClientEnsureConnected server now
  orShutdown server now (onStream (structuredStreamWriteUint8 rpcGetClusterConfig))
  orShutdown server now (onStream structuredStreamFlush)
  awaitServer server now
  let _ ← orShutdown server now (onStream (structuredStreamReadBytesInplace hashLength))
  let clusterConfig ← orShutdown server now (onStream structuredStreamReadUint16PrefixedBytesInplace)
  if maxConfigSize < clusterConfig.length then throw (.code (.res 1))
  else pure clusterConfig

def menoetiusClientSetConfig (clusterConfig : List UInt8) : SystemM σ Unit := do
  menoetiusClientEnsureConnected server now
  orShutdown server now (onStream (structuredStreamWriteUint8 rpcSetClusterConfig))
  orShutdown server now (onStream (structuredStreamWriteUint16PrefixedString clusterConfig))
  orShutdown server now (onStream structuredStreamFlush)
  awaitServer server now
  orShutdown server now do
    let serverStatus ← onStream structuredStreamReadUint8
    if serverStatus ≠ 0 then throw (.code (.res 1)) else pure ()

end

end Menoetius
