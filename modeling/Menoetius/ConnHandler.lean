import Menoetius.StructuredStream
import Menoetius.Tsc

/-
This file models the server's end of a connection.
-/

namespace Menoetius
open LittleEndian

/-- What the handlers use of a storage. -/
structure StorageCalls (σ : Type) where
  storageWrite : List UInt8 → Point → EStateM Failure σ (Option Err)
  storageGet : List UInt8 → Nat → EStateM Failure σ (List Point)
  /-- The arguments are the index, the value, the matchers with their number, the room, the offset and the limit. -/
  storageLookup : Nat → List UInt8 → List UInt8 → Nat → Nat → Nat → Nat → EStateM Failure σ (List UInt8)
  /-- The code, the results and the last internal id. -/
  storageLookupWithoutIndex : List UInt8 → Nat → Nat → Nat → Nat → EStateM Failure σ (Option Err × List UInt8 × Nat)
  indices : List (List UInt8)
  retentionSeconds : Int
  /-- `SHA1` of OpenSSL. -/
  sha1 : List UInt8 → List UInt8

/-- The data of a connection, and of the server behind it. -/
structure Conn (σ : Type) where
  ss : Stream
  hasValidConfig : Bool
  storage : σ
  clusterConfig : Option (List UInt8)
  clusterConfigHash : List UInt8

abbrev ConnM (σ : Type) := EStateM Failure (Conn σ)

instance {σ : Type} : HasStream (Conn σ) where
  stream := Conn.ss
  withStream := fun data ss => { data with ss }
  stream_withStream := fun _ _ => rfl
  withStream_withStream := fun _ _ _ => rfl
  withStream_stream := fun _ => rfl

def onStorage {σ α : Type} (action : EStateM Failure σ α) : ConnM σ α := fun data =>
  match action data.storage with
  | .ok value storage => .ok value { data with storage }
  | .error failure storage => .error failure { data with storage }

/-- A code is a result of the call. Only a stop ends it. -/
def reported {σ : Type} (action : EStateM Failure σ (Option Err)) : EStateM Failure σ (Option Err) := fun storage =>
  match action storage with
  | .error (.code err) after => .ok (some err) after
  | result => result

def maxKeyBuf : Nat := (4 + 512) * 5000

def maxPtsPerSeries : Nat := 86400

def statusTooManyMetrics : Nat := 2

def statusUnknownError : Nat := 4

def statusMissingIndex : Nat := 5

def statusUnauthorized : Nat := 8

def clusterConfigOutOfDate : Nat := 0x80

/-- The status that ends a response. -/
def statusOf {σ : Type} (data : Conn σ) (errorCode : Nat) : Nat :=
  if data.hasValidConfig then errorCode else errorCode ||| clusterConfigOutOfDate

section
variable {σ : Type} (calls : StorageCalls σ)

/-- One point of a put request. A write that fails is not reported. -/
def handleConnPutPoint (earliestTime : Int) (key : List UInt8) : ConnM σ Unit := do
  onStream (structuredStreamEnsureRead 16)
  let t ← onStream structuredStreamReadInt64
  let y ← onStream structuredStreamReadDouble
  if t.toInt < earliestTime then pure ()
  else do
    let _ ← onStorage (reported (calls.storageWrite key (t, y)))

def handleConnPutPoints (earliestTime : Int) (key : List UInt8) : Nat → ConnM σ Unit
  | 0 => pure ()
  | numPts + 1 => do
      handleConnPutPoint calls earliestTime key
      handleConnPutPoints earliestTime key numPts

/-- Every round takes at least two bytes, so that the input bounds the rounds. -/
def handleConnPutLoop (earliestTime : Int) : Nat → ConnM σ Unit
  | 0 => pure ()
  | rounds + 1 => do
      let key ← onStream (structuredStreamReadUint16PrefixedBytes maxLfmSize)
      if key.length = 0 then pure ()
      else do
        let numPts ← onStream structuredStreamReadUint32
        handleConnPutPoints calls earliestTime key numPts
        handleConnPutLoop earliestTime rounds

def handleConnPutData (now : Int) : ConnM σ Unit := do
  let data ← get
  handleConnPutLoop calls (now - calls.retentionSeconds) (data.ss.input.length + 1)
  onStream (structuredStreamEnsureWrite 5)
  let data ← get
  onStream (structuredStreamWriteUint8 (statusOf data 0))
  onStream structuredStreamFlush

/-- The keys of a get request are copied, one after the other. Keys that do not fit are dropped. -/
def handleConnGetKeys : Nat → Nat → List UInt8 → StreamM (Nat × List UInt8)
  | 0, errorCode, keysBuf => pure (errorCode, keysBuf)
  | numKeys + 1, errorCode, keysBuf => do
      let key ← structuredStreamReadUint16PrefixedBytesInplace
      if maxKeyBuf ≤ keysBuf.length + 8 + key.length then
        handleConnGetKeys numKeys statusTooManyMetrics keysBuf
      else
        handleConnGetKeys numKeys errorCode (keysBuf ++ (bytesOf 2 key.length ++ key))

def handleConnGetPoints : List Point → StreamM Unit
  | [] => pure ()
  | point :: rest => do
      structuredStreamWriteInt64 point.1
      structuredStreamWriteDouble point.2
      handleConnGetPoints rest

def handleConnGetGroup (points : List Point) : StreamM Unit := do
  structuredStreamWriteUint32 points.length
  handleConnGetPoints points

/-- The answers, one for each key of the buffer. The result is the error code. -/
def handleConnGetAnswers : Nat → Nat → List UInt8 → ConnM σ Nat
  | 0, errorCode, _ => pure errorCode
  | numKeys + 1, errorCode, p =>
      if errorCode ≠ 0 then do
        onStream (structuredStreamWriteUint32 0)
        handleConnGetAnswers numKeys errorCode p
      else do
        let keyLen := valueOf (p.take 2)
        let key := (p.drop 2).take keyLen
        let rest := (p.drop 2).drop keyLen
        fun data =>
          match calls.storageGet key maxPtsPerSeries data.storage with
          | .ok points storage =>
              (do onStream (handleConnGetGroup points)
                  handleConnGetAnswers numKeys 0 rest : ConnM σ Nat) { data with storage }
          | .error (.code err) storage =>
              (do onStream (structuredStreamWriteUint32 0)
                  handleConnGetAnswers numKeys (if err = .lookupFailed then 0 else statusUnknownError) rest :
                ConnM σ Nat) { data with storage }
          | .error (.abort site) storage => .error (.abort site) { data with storage }

def handleConnGetData : ConnM σ Unit := do
  let numKeys ← onStream structuredStreamReadUint16
  let (errorCode, keysBuf) ← onStream (handleConnGetKeys numKeys 0 [])
  let errorCode ← handleConnGetAnswers calls numKeys errorCode keysBuf
  let data ← get
  onStream (structuredStreamWriteUint8 (statusOf data errorCode))
  onStream structuredStreamFlush

def handleConnReplicationData : ConnM σ Unit := throw (.code (.res 1))

/-- A server that is not a debug build ignores the clock. -/
def handleConnSetClock : ConnM σ Unit := do
  let _ ← onStream structuredStreamReadInt64
  throw (.code (.res 1))

/-- A server that is not a debug build refuses the hook. -/
def handleConnTestHook : ConnM σ Unit := do
  let _ ← onStream structuredStreamReadUint64
  onStream (structuredStreamWriteUint8 statusUnauthorized)
  onStream structuredStreamFlush

def maxLabelMatches : Nat := 512 * 10

def maxLfmResults : Nat := 1024 * 1024

def nameIndex : Nat := 2

def numSpecialIndices : Nat := 3

/-- The bytes of `__name__`. -/
def nameLabel : List UInt8 := [95, 95, 110, 97, 109, 101, 95, 95]

/-- The index that is used, the place of the value to look up, and the labels and values read so far. -/
structure Matchers where
  indexNum : Option Nat
  indexVal : Option Nat
  labelMatches : List UInt8
  deriving DecidableEq, Repr

/-- A label can select an index. The value to look up is forgotten when a configured index is selected. -/
def Matchers.select (indices : List (List UInt8)) (matchers : Matchers) (label : List UInt8) : Matchers :=
  if matchers.indexNum = none ∧ label = nameLabel then { matchers with indexNum := some nameIndex }
  else
    let start := match matchers.indexNum with
      | some num => if numSpecialIndices ≤ num then num - numSpecialIndices + 1 else 0
      | none => 0
    match (indices.drop start).findIdx? (fun name => name = label) with
    | some j => { matchers with indexNum := some (start + j + numSpecialIndices), indexVal := none }
    | none => matchers

/-- Bytes are appended with a zero behind them, if there is room. -/
def Matchers.append (matchers : Matchers) (bytes : List UInt8) : Except Failure Matchers :=
  if maxLabelMatches ≤ matchers.labelMatches.length + bytes.length + 1 then .error (.code (.res 1))
  else .ok { matchers with labelMatches := matchers.labelMatches ++ (bytes ++ [0]) }

/-- The first value behind the last selection is the one to look up. -/
def Matchers.latch (matchers : Matchers) : Matchers :=
  { matchers with indexVal := some (matchers.indexVal.getD matchers.labelMatches.length) }

def Matchers.addLabel (indices : List (List UInt8)) (matchers : Matchers) (label : List UInt8) :
    Except Failure Matchers :=
  (matchers.select indices label).append label

def Matchers.addValue (matchers : Matchers) (value : List UInt8) : Except Failure Matchers :=
  matchers.latch.append value

def handleConnQueryLabels (indices : List (List UInt8)) : Nat → Matchers → StreamM Matchers
  | 0, matchers => pure matchers
  | numLabels + 1, matchers => do
      let label ← structuredStreamReadUint16PrefixedBytesInplace
      let matchers ← ofExcept (matchers.addLabel indices label)
      let value ← structuredStreamReadUint16PrefixedBytesInplace
      let matchers ← ofExcept (matchers.addValue value)
      handleConnQueryLabels indices numLabels matchers

/-- What a query asks for. -/
structure Query where
  flags : Nat
  numLabels : Nat
  matchers : Matchers
  offset : Nat
  limit : Nat

def handleConnQueryRead : StreamM Query := do
  let flags ← structuredStreamReadUint8
  let numLabels ← structuredStreamReadUint8
  let matchers ← handleConnQueryLabels calls.indices numLabels ⟨none, none, []⟩
  let offset ← structuredStreamReadUint64
  let limit ← structuredStreamReadUint64
  pure { flags, numLabels, matchers, offset, limit }

def Query.allowFullScan (query : Query) : Bool := query.flags.testBit 0

def Query.forceFullScan (query : Query) : Bool := query.flags.testBit 1

/-- A lookup by index leaves the last internal id at zero. -/
def lookupResult {σ : Type} (action : EStateM Failure σ (List UInt8)) :
    EStateM Failure σ (Option Err × List UInt8 × Nat) := fun storage =>
  match action storage with
  | .ok results after => .ok (none, results, 0) after
  | .error (.code err) after => .ok (some err, [], 0) after
  | .error (.abort site) after => .error (.abort site) after

/-- The code, the results and the last internal id of a query. -/
def handleConnQueryLookup (query : Query) : EStateM Failure σ (Option Err × List UInt8 × Nat) := do
  let labelMatches := query.matchers.labelMatches
  if query.forceFullScan then
    calls.storageLookupWithoutIndex labelMatches query.numLabels maxLfmResults query.offset query.limit
  else
    match query.matchers.indexNum with
    | none =>
        if 0 < query.offset then throw (.code (.res 1))
        else if query.allowFullScan then
          calls.storageLookupWithoutIndex labelMatches query.numLabels maxLfmResults 0 query.limit
        else pure (some .badIndex, [], 0)
    | some indexNum =>
        let value := cString (labelMatches.drop (query.matchers.indexVal.getD 0))
        lookupResult (calls.storageLookup indexNum value labelMatches query.numLabels maxLfmResults query.offset
          query.limit)

def queryErrorCode : Option Err → Nat
  | none => 0
  | some .bufTooSmall => statusTooManyMetrics
  | some .badIndex => statusMissingIndex
  | some _ => statusUnknownError

def handleConnQueryAnswer (fullScan : Bool) (status : Nat) (err : Option Err) (results : List UInt8)
    (lastInternalId : Nat) : StreamM Unit := do
  if err = none then structuredStreamWriteBytes results else pure ()
  structuredStreamWriteUint16PrefixedString []
  if fullScan then structuredStreamWriteUint64 lastInternalId else pure ()
  structuredStreamWriteUint8 status
  structuredStreamFlush

def handleConnQueryLfms : ConnM σ Unit := do
  let query ← onStream (handleConnQueryRead calls)
  let (err, results, lastInternalId) ← onStorage (handleConnQueryLookup calls query)
  let data ← get
  onStream (handleConnQueryAnswer (query.forceFullScan || query.allowFullScan) (statusOf data (queryErrorCode err)) err
    results lastInternalId)

def handleConnGetStatus : ConnM σ Unit := do
  onStream (structuredStreamWriteUint8 0)
  onStream structuredStreamFlush

def handleConnGetClusterConfig : ConnM σ Unit := do
  let data ← get
  onStream (structuredStreamWriteBytes data.clusterConfigHash)
  onStream (structuredStreamWriteUint16PrefixedString (data.clusterConfig.getD []))
  onStream (structuredStreamWriteUint8 0)
  onStream structuredStreamFlush

/-- The configuration is kept up to its first zero byte. -/
def handleConnSetClusterConfig : ConnM σ Unit := do
  let s ← onStream structuredStreamReadUint16PrefixedBytesInplace
  modify fun data =>
    { data with
      clusterConfig := some (cString s), clusterConfigHash := calls.sha1 (cString s), hasValidConfig := false }
  onStream (structuredStreamWriteUint8 0)
  onStream structuredStreamFlush

def shaDigestLength : Nat := 20

def handleConnRegisterClientClusterConfig : ConnM σ Unit := do
  let s ← onStream (structuredStreamReadBytesInplace shaDigestLength)
  modify fun data => { data with hasValidConfig := s = data.clusterConfigHash }
  let data ← get
  onStream (structuredStreamWriteUint8 (if data.hasValidConfig then 0 else clusterConfigOutOfDate))
  onStream structuredStreamFlush

def handleConnGetVersion (gitCommit buildTime : List UInt8) : ConnM σ Unit := do
  onStream (structuredStreamWriteUint16PrefixedString gitCommit)
  onStream (structuredStreamWriteUint16PrefixedString buildTime)
  onStream (structuredStreamWriteUint8 0)
  onStream structuredStreamFlush

def rpcMagicHeader : Nat := 1547675033

def handleConnRpcEntry : ConnM σ Unit := do
  let magicHeader ← onStream structuredStreamReadUint64
  if magicHeader ≠ rpcMagicHeader then throw (.code (.res 1)) else pure ()

def rpcPutData : Nat := 3

def rpcGetData : Nat := 4

def rpcReplicationData : Nat := 7

def rpcQueryLfms : Nat := 8

def rpcGetStatus : Nat := 9

def rpcGetClusterConfig : Nat := 10

def rpcSetClusterConfig : Nat := 11

def rpcRegisterClientClusterConfig : Nat := 12

def rpcGetVersion : Nat := 13

def rpcSetClock : Nat := 98

def rpcTestHook : Nat := 99

/-- The strings of the build are arguments. Unknown codes end the connection as every failure does. -/
def handleConnRpc (now : Int) (gitCommit buildTime : List UInt8) (rpcCode : Nat) : ConnM σ Unit :=
  if rpcCode = rpcPutData then handleConnPutData calls now
  else if rpcCode = rpcGetData then handleConnGetData calls
  else if rpcCode = rpcReplicationData then handleConnReplicationData
  else if rpcCode = rpcQueryLfms then handleConnQueryLfms calls
  else if rpcCode = rpcSetClock then handleConnSetClock
  else if rpcCode = rpcTestHook then handleConnTestHook
  else if rpcCode = rpcGetStatus then handleConnGetStatus
  else if rpcCode = rpcGetClusterConfig then handleConnGetClusterConfig
  else if rpcCode = rpcSetClusterConfig then handleConnSetClusterConfig calls
  else if rpcCode = rpcGetVersion then handleConnGetVersion gitCommit buildTime
  else if rpcCode = rpcRegisterClientClusterConfig then handleConnRegisterClientClusterConfig
  else throw (.code .unknown)

def handleConnRpcCode (now : Int) (gitCommit buildTime : List UInt8) : ConnM σ Unit := do
  let rpcCode ← onStream structuredStreamReadUint8
  handleConnRpc calls now gitCommit buildTime rpcCode

end

end Menoetius
