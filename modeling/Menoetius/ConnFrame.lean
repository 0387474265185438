import Menoetius.ClusterConfig
import Menoetius.Connection
import Menoetius.Lib.Related

/-
This file shows what the handlers of a connection keep, however they end.
-/

namespace Menoetius
open EStateM LittleEndian

/-- The call has returned a code. -/
def Failure.IsCode : Failure → Prop
  | .code _ => True
  | .abort _ => False

structure Stream.SameSizes (ss after : Stream) : Prop where
  read : after.readBufSize = ss.readBufSize
  write : after.writeBufSize = ss.writeBufSize

instance : IsPreorder Stream Stream.SameSizes where
  refl := fun _ => ⟨rfl, rfl⟩
  trans := fun _ _ _ first second => ⟨second.read.trans first.read, second.write.trans first.write⟩

/-- The calls of a stream keep the sizes of its buffers. -/
abbrev KeepsSizes {α : Type} (action : StreamM α) : Prop := action.Relates Stream.SameSizes fun _ => True

section
variable {α : Type}

theorem keepsSizes_set {next : Stream → StreamM α} (change : Stream → Stream)
    (same : ∀ ss, Stream.SameSizes ss (change ss)) (rest : ∀ ss, KeepsSizes (next ss)) :
    KeepsSizes (do let ss ← get; set (change ss); next ss) := by
  refine relates_get_bind fun ss => ?_
  refine ends_bind_ok (set_apply (change ss) ss) ((rest ss (change ss)).mono ?_ ?_)
  · exact fun _ _ later => IsTrans.trans _ _ _ (same ss) later
  · exact fun _ _ later counts => IsTrans.trans _ _ _ (same ss) (later counts)

theorem keepsSizes_require (condition : Prop) [Decidable condition] (site : Abort) :
    KeepsSizes (require condition site) := relates_ite (relates_pure ()) (relates_throw _)

theorem socketRead_sizes (maxSpace : Nat) : KeepsSizes (socketRead maxSpace) := by
  unfold socketRead
  exact keepsSizes_set (fun ss => { ss with
    unread := ss.unread ++ ss.incoming.take (min (min maxSpace ss.incoming.length) (max 1 (ss.arrived ss.reads)))
    incoming := ss.incoming.drop (min (min maxSpace ss.incoming.length) (max 1 (ss.arrived ss.reads)))
    reads := ss.reads + 1 }) (fun _ => ⟨rfl, rfl⟩) fun ss => relates_pure _

theorem ensureReadLoop_sizes (rounds : Nat) : ∀ needed maxSpace, KeepsSizes (ensureReadLoop rounds needed maxSpace) := by
  induction rounds with
  | zero => exact fun _ _ => relates_pure ()
  | succ rounds ih =>
      intro needed maxSpace
      unfold ensureReadLoop
      refine (keepsSizes_require _ _).bind fun _ => (socketRead_sizes maxSpace).bind fun m => ?_
      exact relates_ite (relates_throw _) (relates_ite (ih _ _) (relates_pure ()))

theorem structuredStreamEnsureRead_sizes (n : Nat) : KeepsSizes (structuredStreamEnsureRead n) := by
  unfold structuredStreamEnsureRead
  refine relates_get.bind fun ss => relates_ite (relates_pure ()) ?_
  exact relates_ite (relates_throw _) (ensureReadLoop_sizes _ _ _)

theorem structuredStreamFlush_sizes : KeepsSizes structuredStreamFlush := relates_modify fun _ => ⟨rfl, rfl⟩

theorem structuredStreamWriteBytes_sizes (bytes : List UInt8) : KeepsSizes (structuredStreamWriteBytes bytes) := by
  unfold structuredStreamWriteBytes structuredStreamEnsureWrite
  refine Relates.bind ?_ fun _ => relates_modify fun _ => ⟨rfl, rfl⟩
  refine relates_get.bind fun ss => relates_ite (relates_pure ()) ?_
  exact relates_ite (relates_throw _) structuredStreamFlush_sizes

theorem takeUnread_sizes (n : Nat) : KeepsSizes (takeUnread n) := by
  unfold takeUnread
  exact keepsSizes_set (fun ss => { ss with unread := ss.unread.drop n }) (fun _ => ⟨rfl, rfl⟩)
    fun ss => relates_pure _

theorem structuredStreamReadBytes_sizes (n : Nat) : KeepsSizes (structuredStreamReadBytes n) :=
  (structuredStreamEnsureRead_sizes n).bind fun _ => takeUnread_sizes n

theorem readUint_sizes (width : Nat) : KeepsSizes (readUint width) :=
  (structuredStreamReadBytes_sizes width).bind fun _ => relates_pure _

theorem readWord_sizes : KeepsSizes (BitVec.ofNat 64 <$> readUint 8) := (readUint_sizes 8).map _

theorem underrun_sizes {action : StreamM α} (keeps : KeepsSizes action) : KeepsSizes (underrun action) := by
  intro ss
  constructor
  · intro value after run
    unfold underrun at run
    split at run
    · cases run
    · exact (keeps ss).of_ok run
  · intro failure after run _
    unfold underrun at run
    split at run
    · rename_i ended
      cases run
      exact (keeps ss).of_error ended trivial
    · exact (keeps ss).of_error run trivial

theorem readPrefixed_sizes : KeepsSizes structuredStreamReadUint16PrefixedBytesInplace := by
  unfold structuredStreamReadUint16PrefixedBytesInplace
  refine (structuredStreamEnsureRead_sizes 2).bind fun _ => relates_get.bind fun ss => ?_
  refine (underrun_sizes (structuredStreamEnsureRead_sizes _)).bind fun _ => ?_
  exact (takeUnread_sizes 2).bind fun _ => takeUnread_sizes _

theorem readPrefixedBytes_sizes (bufSize : Nat) : KeepsSizes (structuredStreamReadUint16PrefixedBytes bufSize) :=
  readPrefixed_sizes.bind fun _ => relates_ite (relates_throw _) (relates_pure _)

theorem readBytesInplace_sizes (n : Nat) : KeepsSizes (structuredStreamReadBytesInplace n) :=
  (underrun_sizes (structuredStreamEnsureRead_sizes n)).bind fun _ => takeUnread_sizes n

theorem writeUint_sizes (width x : Nat) : KeepsSizes (writeUint width x) := structuredStreamWriteBytes_sizes _

theorem writePrefixedBytes_sizes (bytes : List UInt8) : KeepsSizes (structuredStreamWriteUint16PrefixedBytes bytes) :=
  (writeUint_sizes _ _).bind fun _ => relates_ite (relates_pure ()) (structuredStreamWriteBytes_sizes _)

end

/-- What holds before holds afterwards. -/
def Preserves {σ : Type} (invariant : σ → Prop) (before after : σ) : Prop := invariant before → invariant after

instance {σ : Type} (invariant : σ → Prop) : IsPreorder σ (Preserves invariant) where
  refl := fun _ holds => holds
  trans := fun _ _ _ first second holds => second (first holds)

/-- Keys as a lookup returns them. -/
def ReturnsKeys (results : List UInt8) : Prop :=
  ∃ keys : List (List UInt8), results = keys.flatMap prefixed ∧ ∀ key ∈ keys, ValidKey key

/-- What the handlers rely on: the calls of the storage keep an invariant, and under it the lookups return keys. -/
structure Hosts {σ : Type} (calls : StorageCalls σ) (invariant : σ → Prop) : Prop where
  write : ∀ key point, ValidKey key → (calls.storageWrite key point).Relates (Preserves invariant) Failure.IsCode
  get : ∀ key maxNumPts, (calls.storageGet key maxNumPts).Relates (Preserves invariant) Failure.IsCode
  lookup : ∀ indexNum value matchers numMatchers room offset limit,
    (calls.storageLookup indexNum value matchers numMatchers room offset limit).Relates (Preserves invariant)
      Failure.IsCode
  scan : ∀ matchers numMatchers room lastInternalId limit,
    (calls.storageLookupWithoutIndex matchers numMatchers room lastInternalId limit).Relates (Preserves invariant)
      Failure.IsCode
  bounded : ∀ key maxNumPts storage points after,
    calls.storageGet key maxNumPts storage = .ok points after → points.length ≤ maxNumPts
  lookupKeys : ∀ indexNum value matchers numMatchers room offset limit storage results after, invariant storage →
    calls.storageLookup indexNum value matchers numMatchers room offset limit storage = .ok results after →
    ReturnsKeys results
  scanKeys : ∀ matchers numMatchers room lastInternalId limit storage results last after, invariant storage →
    calls.storageLookupWithoutIndex matchers numMatchers room lastInternalId limit storage =
      .ok (none, results, last) after → ReturnsKeys results
  sha1Length : ∀ text, (calls.sha1 text).length = hashLength

/-- What a server keeps of its data: the storage, and a hash of the right length. -/
structure Conn.Sound {σ : Type} (invariant : σ → Prop) (data : Conn σ) : Prop where
  storage : invariant data.storage
  hash : data.clusterConfigHash.length = hashLength

structure Conn.Keeps {σ : Type} (invariant : σ → Prop) (data after : Conn σ) : Prop where
  sizes : data.ss.SameSizes after.ss
  sound : data.Sound invariant → after.Sound invariant

instance {σ : Type} (invariant : σ → Prop) : IsPreorder (Conn σ) (Conn.Keeps invariant) where
  refl := fun _ => ⟨Std.Refl.refl _, fun sound => sound⟩
  trans := fun _ _ _ first second =>
    ⟨IsTrans.trans _ _ _ first.sizes second.sizes, fun sound => second.sound (first.sound sound)⟩

section
variable {σ α : Type} {invariant : σ → Prop}

/-- A handler keeps the data, unless the process stops. -/
abbrev KeepsConn {σ α : Type} (invariant : σ → Prop) (action : ConnM σ α) : Prop :=
  action.Relates (Conn.Keeps invariant) Failure.IsCode

theorem KeepsSizes.conn {action : StreamM α} (keeps : KeepsSizes action) :
    KeepsConn invariant (onStream action : ConnM σ α) := by
  intro data
  cases run : action data.ss with
  | ok value ss =>
      have done : onStream action data = .ok value { data with ss } := onStream_ok run
      refine ends_of_ok done ⟨(keeps data.ss).of_ok run, fun sound => ?_⟩
      exact ⟨sound.storage, sound.hash⟩
  | error failure ss =>
      have failed : onStream action data = .error failure { data with ss } := onStream_error run
      refine ends_of_error failed fun _ =>
        ⟨(keeps data.ss).of_error run trivial, fun sound => ?_⟩
      exact ⟨sound.storage, sound.hash⟩

theorem keepsConn_onStorage {action : EStateM Failure σ α}
    (keeps : action.Relates (Preserves invariant) Failure.IsCode) : KeepsConn invariant (onStorage action) := by
  intro data
  cases run : action data.storage with
  | ok value storage =>
      have done : onStorage action data = .ok value { data with storage } := by rw [onStorage, run]
      refine ends_of_ok done ⟨⟨rfl, rfl⟩, fun sound => ?_⟩
      exact ⟨(keeps data.storage).of_ok run sound.storage, sound.hash⟩
  | error failure storage =>
      have failed : onStorage action data = .error failure { data with storage } := by rw [onStorage, run]
      refine ends_of_error failed fun code =>
        ⟨⟨rfl, rfl⟩, fun sound => ?_⟩
      exact ⟨(keeps data.storage).of_error run code sound.storage, sound.hash⟩

end

section
variable {σ : Type} {calls : StorageCalls σ} {invariant : σ → Prop}

theorem reported_keeps {action : EStateM Failure σ (Option Err)}
    (keeps : action.Relates (Preserves invariant) Failure.IsCode) :
    (reported action).Relates (Preserves invariant) Failure.IsCode := by
  intro storage
  cases run : action storage with
  | ok value after => exact ends_of_ok (by rw [reported, run]) ((keeps storage).of_ok run)
  | error failure after =>
      cases failure with
      | code err => exact ends_of_ok (by rw [reported, run]) ((keeps storage).of_error run trivial)
      | abort site =>
          have stopped : reported action storage = .error (.abort site) after := by rw [reported, run]
          exact ends_of_error stopped fun code => False.elim code

theorem handleConnPutPoints_keeps (hosts : Hosts calls invariant) (earliestTime : Int) {key : List UInt8}
    (valid : ValidKey key) (numPts : Nat) : KeepsConn invariant (handleConnPutPoints calls earliestTime key numPts) := by
  induction numPts with
  | zero => exact relates_pure ()
  | succ numPts ih =>
      refine Relates.bind ?_ fun _ => ih
      unfold handleConnPutPoint
      refine (structuredStreamEnsureRead_sizes 16).conn.bind fun _ => ?_
      refine readWord_sizes.conn.bind fun t => readWord_sizes.conn.bind fun y => ?_
      refine relates_ite (relates_pure _) ?_
      exact (keepsConn_onStorage (reported_keeps (hosts.write key (t, y) valid))).bind fun _ => relates_pure _

theorem handleConnPutLoop_keeps (hosts : Hosts calls invariant) (earliestTime : Int) (rounds : Nat) :
    KeepsConn invariant (handleConnPutLoop calls earliestTime rounds) := by
  induction rounds with
  | zero => exact relates_pure ()
  | succ rounds ih =>
      unfold handleConnPutLoop
      refine (readPrefixedBytes_sizes maxLfmSize).conn.bind_of (fun _ _ _ => readPrefixedBytes_length) fun key short => ?_
      by_cases empty : key.length = 0
      · rw [if_pos empty]
        exact relates_pure ()
      · rw [if_neg empty]
        refine (readUint_sizes 4).conn.bind fun numPts => Relates.bind ?_ fun _ => ih
        exact handleConnPutPoints_keeps hosts earliestTime ⟨Nat.one_le_iff_ne_zero.mpr empty, short⟩ numPts

/-- The end of most handlers. -/
theorem writeStatus_keeps (status : Conn σ → Nat) : KeepsConn invariant (do
    let data ← get
    onStream (structuredStreamWriteUint8 (status data))
    onStream structuredStreamFlush) :=
  relates_get.bind fun data => (writeUint_sizes 1 (status data)).conn.bind fun _ => structuredStreamFlush_sizes.conn

theorem handleConnPutData_keeps (hosts : Hosts calls invariant) (now : Int) :
    KeepsConn invariant (handleConnPutData calls now) := by
  unfold handleConnPutData
  refine relates_get.bind fun data => (handleConnPutLoop_keeps hosts _ _).bind fun _ => ?_
  refine Relates.bind (KeepsSizes.conn ?_) fun _ => writeStatus_keeps _
  refine relates_get.bind fun ss => relates_ite (relates_pure ()) ?_
  exact relates_ite (relates_throw _) structuredStreamFlush_sizes

theorem handleConnGetKeys_sizes (numKeys : Nat) :
    ∀ errorCode keysBuf, KeepsSizes (handleConnGetKeys numKeys errorCode keysBuf) := by
  induction numKeys with
  | zero => exact fun _ _ => relates_pure _
  | succ numKeys ih =>
      intro errorCode keysBuf
      exact readPrefixed_sizes.bind fun key => relates_ite (ih _ _) (ih _ _)

theorem handleConnGetPoints_sizes (points : List Point) : KeepsSizes (handleConnGetPoints points) := by
  induction points with
  | nil => exact relates_pure ()
  | cons point rest ih => exact (writeUint_sizes 8 _).bind fun _ => (writeUint_sizes 8 _).bind fun _ => ih

theorem handleConnGetGroup_sizes (points : List Point) : KeepsSizes (handleConnGetGroup points) :=
  (writeUint_sizes 4 _).bind fun _ => handleConnGetPoints_sizes points

theorem keepsConn_looked {data : Conn σ} {storage : σ} (kept : Preserves invariant data.storage storage) :
    Conn.Keeps invariant data { data with storage } :=
  ⟨⟨rfl, rfl⟩, fun sound => ⟨kept sound.storage, sound.hash⟩⟩

theorem handleConnGetAnswers_keeps (hosts : Hosts calls invariant) (numKeys : Nat) :
    ∀ errorCode p, KeepsConn invariant (handleConnGetAnswers calls numKeys errorCode p) := by
  induction numKeys with
  | zero => exact fun _ _ => relates_pure _
  | succ numKeys ih =>
      intro errorCode p
      have answered : ∀ (group : StreamM Unit) code rest, KeepsSizes group →
          KeepsConn invariant (do onStream group; handleConnGetAnswers calls numKeys code rest) :=
        fun group code rest keeps => keeps.conn.bind fun _ => ih code rest
      by_cases failed : errorCode ≠ 0
      · have step : handleConnGetAnswers calls (numKeys + 1) errorCode p =
            (do onStream (structuredStreamWriteUint32 0)
                handleConnGetAnswers calls numKeys errorCode p) := if_pos failed
        rw [step]
        exact answered _ _ _ (writeUint_sizes 4 0)
      · intro data
        have read := hosts.get ((p.drop 2).take (valueOf (p.take 2))) maxPtsPerSeries data.storage
        cases run : calls.storageGet ((p.drop 2).take (valueOf (p.take 2))) maxPtsPerSeries data.storage with
        | ok points storage =>
            have same : handleConnGetAnswers calls (numKeys + 1) errorCode p data =
                (do onStream (handleConnGetGroup points)
                    handleConnGetAnswers calls numKeys 0 ((p.drop 2).drop (valueOf (p.take 2))) : ConnM σ Nat)
                  { data with storage } := (congrFun (if_neg failed) data).trans (by rw [run])
            have looked := keepsConn_looked (read.of_ok run)
            have ended := answered _ 0 ((p.drop 2).drop (valueOf (p.take 2))) (handleConnGetGroup_sizes points)
              { data with storage }
            exact ends_of_eq same (ended.mono (fun _ _ later => IsTrans.trans _ _ _ looked later)
              fun _ _ later code => IsTrans.trans _ _ _ looked (later code))
        | error failure storage =>
            cases failure with
            | code err =>
                have same : handleConnGetAnswers calls (numKeys + 1) errorCode p data =
                    (do onStream (structuredStreamWriteUint32 0)
                        handleConnGetAnswers calls numKeys (if err = .lookupFailed then 0 else statusUnknownError)
                          ((p.drop 2).drop (valueOf (p.take 2))) : ConnM σ Nat)
                      { data with storage } := (congrFun (if_neg failed) data).trans (by rw [run])
                have looked := keepsConn_looked (read.of_error run trivial)
                have ended := answered _ (if err = .lookupFailed then 0 else statusUnknownError)
                  ((p.drop 2).drop (valueOf (p.take 2))) (writeUint_sizes 4 0) { data with storage }
                exact ends_of_eq same (ended.mono (fun _ _ later => IsTrans.trans _ _ _ looked later)
                  fun _ _ later code => IsTrans.trans _ _ _ looked (later code))
            | abort site =>
                have stopped : handleConnGetAnswers calls (numKeys + 1) errorCode p data =
                    .error (.abort site) { data with storage } :=
                  (congrFun (if_neg failed) data).trans (by rw [run])
                exact ends_of_error stopped fun code => False.elim code

theorem handleConnGetData_keeps (hosts : Hosts calls invariant) : KeepsConn invariant (handleConnGetData calls) := by
  unfold handleConnGetData
  refine (readUint_sizes 2).conn.bind fun numKeys => (handleConnGetKeys_sizes numKeys 0 []).conn.bind fun read => ?_
  exact (handleConnGetAnswers_keeps hosts numKeys read.1 read.2).bind fun errorCode =>
    writeStatus_keeps fun data => statusOf data errorCode

theorem ofExcept_sizes {α : Type} (result : Except Failure α) : KeepsSizes (ofExcept result : StreamM α) := by
  cases result with
  | ok value => exact relates_pure value
  | error failure => exact relates_throw failure

theorem handleConnQueryLabels_sizes (indices : List (List UInt8)) (numLabels : Nat) :
    ∀ matchers, KeepsSizes (handleConnQueryLabels indices numLabels matchers) := by
  induction numLabels with
  | zero => exact fun matchers => relates_pure matchers
  | succ numLabels ih =>
      intro matchers
      unfold handleConnQueryLabels
      refine readPrefixed_sizes.bind fun label => (ofExcept_sizes _).bind fun labelled => ?_
      exact readPrefixed_sizes.bind fun value => (ofExcept_sizes _).bind fun added => ih added

theorem handleConnQueryRead_sizes (calls : StorageCalls σ) : KeepsSizes (handleConnQueryRead calls) := by
  unfold handleConnQueryRead
  refine (readUint_sizes 1).bind fun flags => (readUint_sizes 1).bind fun numLabels => ?_
  refine (handleConnQueryLabels_sizes calls.indices numLabels _).bind fun matchers => ?_
  exact (readUint_sizes 8).bind fun offset => (readUint_sizes 8).bind fun limit => relates_pure _

theorem lookupResult_keeps {action : EStateM Failure σ (List UInt8)}
    (keeps : action.Relates (Preserves invariant) Failure.IsCode) :
    (lookupResult action).Relates (Preserves invariant) Failure.IsCode := by
  intro storage
  cases run : action storage with
  | ok value after => exact ends_of_ok (by rw [lookupResult, run]) ((keeps storage).of_ok run)
  | error failure after =>
      cases failure with
      | code err => exact ends_of_ok (by rw [lookupResult, run]) ((keeps storage).of_error run trivial)
      | abort site =>
          have stopped : lookupResult action storage = .error (.abort site) after := by rw [lookupResult, run]
          exact ends_of_error stopped fun code => False.elim code

theorem handleConnQueryLookup_keeps (hosts : Hosts calls invariant) (query : Query) :
    (handleConnQueryLookup calls query).Relates (Preserves invariant) Failure.IsCode := by
  unfold handleConnQueryLookup
  refine relates_ite (hosts.scan _ _ _ _ _) ?_
  split
  · exact relates_ite (relates_throw _) (relates_ite (hosts.scan _ _ _ _ _) (relates_pure _))
  · exact lookupResult_keeps (hosts.lookup _ _ _ _ _ _ _)

theorem handleConnQueryAnswer_sizes (fullScan : Bool) (status : Nat) (err : Option Err) (results : List UInt8)
    (lastInternalId : Nat) : KeepsSizes (handleConnQueryAnswer fullScan status err results lastInternalId) := by
  unfold handleConnQueryAnswer
  have last : KeepsSizes (structuredStreamWriteUint8 status >>= fun _ => structuredStreamFlush) :=
    (writeUint_sizes 1 status).bind fun _ => structuredStreamFlush_sizes
  have ended : KeepsSizes (structuredStreamWriteUint16PrefixedString [] >>= fun _ =>
      if fullScan then structuredStreamWriteUint64 lastInternalId >>= fun _ =>
        structuredStreamWriteUint8 status >>= fun _ => structuredStreamFlush
      else pure () >>= fun _ => structuredStreamWriteUint8 status >>= fun _ => structuredStreamFlush) :=
    (writePrefixedBytes_sizes _).bind fun _ =>
      relates_ite ((writeUint_sizes 8 _).bind fun _ => last) ((relates_pure ()).bind fun _ => last)
  exact relates_ite ((structuredStreamWriteBytes_sizes results).bind fun _ => ended)
    ((relates_pure ()).bind fun _ => ended)

theorem handleConnQueryLfms_keeps (hosts : Hosts calls invariant) :
    KeepsConn invariant (handleConnQueryLfms calls) := by
  unfold handleConnQueryLfms
  refine (handleConnQueryRead_sizes calls).conn.bind fun query => ?_
  refine (keepsConn_onStorage (handleConnQueryLookup_keeps hosts query)).bind fun found => ?_
  exact relates_get.bind fun data => (handleConnQueryAnswer_sizes _ _ _ _ _).conn

theorem handleConnGetClusterConfig_keeps : KeepsConn invariant (handleConnGetClusterConfig : ConnM σ Unit) := by
  unfold handleConnGetClusterConfig
  refine relates_get.bind fun data => (structuredStreamWriteBytes_sizes _).conn.bind fun _ => ?_
  refine (writePrefixedBytes_sizes _).conn.bind fun _ => (writeUint_sizes 1 0).conn.bind fun _ => ?_
  exact structuredStreamFlush_sizes.conn

theorem handleConnSetClusterConfig_keeps (hosts : Hosts calls invariant) :
    KeepsConn invariant (handleConnSetClusterConfig calls) := by
  unfold handleConnSetClusterConfig
  refine readPrefixed_sizes.conn.bind fun bytes => ?_
  exact Relates.bind (relates_modify fun data => ⟨⟨rfl, rfl⟩, fun sound => ⟨sound.storage, hosts.sha1Length _⟩⟩)
    fun _ => (writeUint_sizes 1 0).conn.bind fun _ => structuredStreamFlush_sizes.conn

theorem handleConnRegisterClientClusterConfig_keeps :
    KeepsConn invariant (handleConnRegisterClientClusterConfig : ConnM σ Unit) := by
  unfold handleConnRegisterClientClusterConfig
  refine (readBytesInplace_sizes shaDigestLength).conn.bind fun bytes => ?_
  refine Relates.bind (relates_modify fun data => ?_) fun _ => writeStatus_keeps _
  exact ⟨⟨rfl, rfl⟩, fun sound => ⟨sound.storage, sound.hash⟩⟩

theorem handleConnGetVersion_keeps (gitCommit buildTime : List UInt8) :
    KeepsConn invariant (handleConnGetVersion gitCommit buildTime : ConnM σ Unit) := by
  unfold handleConnGetVersion
  refine (writePrefixedBytes_sizes _).conn.bind fun _ => (writePrefixedBytes_sizes _).conn.bind fun _ => ?_
  exact (writeUint_sizes 1 0).conn.bind fun _ => structuredStreamFlush_sizes.conn

/-- Every handler keeps the data of the server, whatever its request is. -/
theorem handleConnRpc_keeps (hosts : Hosts calls invariant) (now : Int) (gitCommit buildTime : List UInt8)
    (rpcCode : Nat) : KeepsConn invariant (handleConnRpc calls now gitCommit buildTime rpcCode) := by
  unfold handleConnRpc
  refine relates_ite (handleConnPutData_keeps hosts now) (relates_ite (handleConnGetData_keeps hosts) ?_)
  refine relates_ite (relates_throw _) (relates_ite (handleConnQueryLfms_keeps hosts) ?_)
  refine relates_ite (readWord_sizes.conn.bind fun _ => relates_throw _) ?_
  refine relates_ite ((readUint_sizes 8).conn.bind fun _ =>
    (writeUint_sizes 1 _).conn.bind fun _ => structuredStreamFlush_sizes.conn) ?_
  refine relates_ite ((writeUint_sizes 1 0).conn.bind fun _ => structuredStreamFlush_sizes.conn) ?_
  refine relates_ite handleConnGetClusterConfig_keeps (relates_ite (handleConnSetClusterConfig_keeps hosts) ?_)
  refine relates_ite (handleConnGetVersion_keeps gitCommit buildTime) ?_
  exact relates_ite handleConnRegisterClientClusterConfig_keeps (relates_throw _)

theorem handleConnRpcEntry_keeps : KeepsConn invariant (handleConnRpcEntry : ConnM σ Unit) :=
  (readUint_sizes 8).conn.bind fun _ => relates_ite (relates_throw _) (relates_pure ())

end

end Menoetius
