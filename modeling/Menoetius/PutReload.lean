import Menoetius.LoadedKeys
import Menoetius.StorageDurable
import Menoetius.WirePut

/-
This file follows the keys of put requests through a sync and a restart.
-/

namespace Menoetius
open LittleEndian

section
variable {σ : Type} {calls : StorageCalls σ} {invariant : σ → Prop}

/-- A call on the stream leaves the storage alone. -/
theorem onStream_storage {α : Type} {action : StreamM α} {data after : Conn σ} {value : α}
    (run : onStream action data = .ok value after) : after.storage = data.storage := by
  obtain ⟨ss, _, rfl⟩ := of_onStream_ok run
  rfl

/-- The calls of `storage_write` that a put request makes. -/
structure KeptByWrites (calls : StorageCalls σ) (invariant : σ → Prop) : Prop where
  write : ∀ key point storage value after, ValidKey key → invariant storage →
    reported (calls.storageWrite key point) storage = .ok value after → invariant after

theorem of_handleConnPutPoint (kept : KeptByWrites calls invariant) {earliestTime : Int} {key : List UInt8}
    (valid : ValidKey key) {data after : Conn σ} (holds : invariant data.storage)
    (run : handleConnPutPoint calls earliestTime key data = .ok () after) : invariant after.storage := by
  obtain ⟨_, data1, ensured, run⟩ := EStateM.of_bind_ok run
  obtain ⟨t, data2, time, run⟩ := EStateM.of_bind_ok run
  obtain ⟨y, data3, double, run⟩ := EStateM.of_bind_ok run
  have same := (onStream_storage double).trans ((onStream_storage time).trans (onStream_storage ensured))
  split at run
  · cases run
    rw [same]
    exact holds
  · obtain ⟨value, data4, wrote, ended⟩ := EStateM.of_bind_ok run
    cases ended
    unfold onStorage at wrote
    split at wrote
    · rename_i storage written
      cases wrote
      rw [same] at written
      exact kept.write key (t, y) _ value storage valid holds written
    · cases wrote

theorem of_handleConnPutPoints (kept : KeptByWrites calls invariant) {earliestTime : Int} {key : List UInt8}
    (valid : ValidKey key) (numPts : Nat) :
    ∀ {data after : Conn σ}, invariant data.storage →
      handleConnPutPoints calls earliestTime key numPts data = .ok () after → invariant after.storage := by
  induction numPts with
  | zero =>
      intro data after holds run
      cases run
      exact holds
  | succ numPts ih =>
      intro data after holds run
      obtain ⟨_, middle, point, run⟩ := EStateM.of_bind_ok run
      exact ih (of_handleConnPutPoint kept valid holds point) run

theorem of_handleConnPutLoop (kept : KeptByWrites calls invariant) {earliestTime : Int} (rounds : Nat) :
    ∀ {data after : Conn σ}, invariant data.storage →
      handleConnPutLoop calls earliestTime rounds data = .ok () after → invariant after.storage := by
  induction rounds with
  | zero =>
      intro data after holds run
      cases run
      exact holds
  | succ rounds ih =>
      intro data after holds run
      obtain ⟨key, data1, read, run⟩ := EStateM.of_bind_ok run
      have short := readPrefixedBytes_length read
      have begun : invariant data1.storage := (onStream_storage read).symm ▸ holds
      split at run
      · cases run
        exact begun
      · obtain ⟨numPts, data2, count, run⟩ := EStateM.of_bind_ok run
        obtain ⟨_, data3, points, run⟩ := EStateM.of_bind_ok run
        exact ih (of_handleConnPutPoints kept ⟨by omega, short⟩ numPts ((onStream_storage count).symm ▸ begun) points) run

/-- What every call of `storage_write` keeps holds after a put request. -/
theorem of_handleConnPutData (kept : KeptByWrites calls invariant) {now : Int} {data after : Conn σ}
    (holds : invariant data.storage) (run : handleConnPutData calls now data = .ok () after) :
    invariant after.storage := by
  unfold handleConnPutData at run
  rw [EStateM.bind_ok (EStateM.get_apply data)] at run
  obtain ⟨_, data1, loop, run⟩ := EStateM.of_bind_ok run
  obtain ⟨_, data2, ensured, run⟩ := EStateM.of_bind_ok run
  rw [EStateM.bind_ok (EStateM.get_apply data2)] at run
  obtain ⟨_, data3, wrote, run⟩ := EStateM.of_bind_ok run
  rw [onStream_storage run, onStream_storage wrote, onStream_storage ensured]
  exact of_handleConnPutLoop kept _ holds loop

end

/-- A storage with the points that `storage_write` has accepted. -/
structure Recorded where
  storage : Storage
  accepted : List (List UInt8 × Point)

def recordingWrite (key : List UInt8) (point : Point) : EStateM Failure Recorded (Option Err) := fun recorded =>
  match storageWrite key [point] recorded.storage with
  | .ok written storage =>
      .ok written.err ⟨storage, recorded.accepted ++ written.stored.map fun point => (key, point)⟩
  | .error failure storage => .error failure ⟨storage, recorded.accepted⟩

/-- The calls of a storage without queries. -/
def recordingCalls (retentionSeconds : Int) : StorageCalls Recorded where
  storageWrite := recordingWrite
  storageGet := fun _ _ => throw (.code .lookupFailed)
  storageLookup := fun _ _ _ _ _ _ _ => throw (.code .badIndex)
  storageLookupWithoutIndex := fun _ _ _ _ _ => throw (.code .badIndex)
  indices := []
  retentionSeconds
  sha1 := id

/-- The default of `MENOETIUS_INITIAL_TSC_BUF_SIZE`. -/
def defaultTscBufSize : Nat := 1024 - 8

/-- The put requests that `handle_conn_put_data` processes, on a storage in a new directory. -/
inductive PutRun (retentionSeconds : Int) (s : Nat) : Recorded → Prop
  | init (memory : Nat → Nat → UInt8) {store : Storage}
      (run : storageInit retentionSeconds s memory newStorage = .ok () store) : PutRun retentionSeconds s ⟨store, []⟩
  | put {data after : Conn Recorded} (earlier : PutRun retentionSeconds s data.storage) (now : Int)
      (run : handleConnPutData (recordingCalls retentionSeconds) now data = .ok () after) :
      PutRun retentionSeconds s after.storage

/-- The accepted points of a key. -/
def Recorded.pointsOf (recorded : Recorded) (key : List UInt8) : List Point :=
  (recorded.accepted.filter fun entry => entry.1 = key).map Prod.snd

/-- The accepted points of each key have positive timestamps in the order of time. -/
structure Recorded.InOrder (recorded : Recorded) : Prop where
  positive : ∀ entry ∈ recorded.accepted, 0 < entry.2.1.toInt
  increasing : ∀ key, Increasing (recorded.pointsOf key)

/-- A restart loads the storage, and every key is found. -/
def Recorded.Loads (recorded : Recorded) (synced : Storage) : Prop :=
  ∀ memory, ∃ written after, (StorageOp.restart memory).run synced = .ok written after ∧
    ∀ entry ∈ recorded.accepted, ∃ points, Reads after entry.1 points

/-- The action returns no code. -/
def OnlyAborts {σ α : Type} (action : EStateM Failure σ α) : Prop :=
  ∀ state, action.Ends state (fun _ _ => True) fun failure _ => ∃ site, failure = .abort site

section
variable {σ α β : Type}

theorem OnlyAborts.bind {first : EStateM Failure σ α} {next : α → EStateM Failure σ β} (start : OnlyAborts first)
    (rest : ∀ value, OnlyAborts (next value)) : OnlyAborts (first >>= next) :=
  fun state => (start state).bind fun value after _ => rest value after

theorem onlyAborts_pure (value : α) : OnlyAborts (pure value : EStateM Failure σ α) :=
  fun _ => EStateM.ends_of_ok rfl trivial

theorem onlyAborts_get : OnlyAborts (get : EStateM Failure σ σ) := fun _ => EStateM.ends_of_ok rfl trivial

theorem onlyAborts_modify (change : σ → σ) : OnlyAborts (modify change : EStateM Failure σ PUnit) :=
  fun _ => EStateM.ends_of_ok rfl trivial

theorem onlyAborts_require (condition : Prop) [Decidable condition] (site : Abort) :
    OnlyAborts (require condition site : EStateM Failure σ Unit) := by
  intro state
  unfold require
  split
  · exact EStateM.ends_of_ok rfl trivial
  · exact EStateM.ends_of_error rfl ⟨site, rfl⟩

theorem onlyAborts_resultCode (action : EStateM Failure σ Unit) : OnlyAborts (resultCode action) := by
  intro state
  cases run : action state with
  | ok value after => exact EStateM.ends_of_ok (resultCode_ok run) trivial
  | error failure after =>
      cases failure with
      | code err => exact EStateM.ends_of_ok (resultCode_code run) trivial
      | abort site =>
          have stopped : resultCode action state = .error (.abort site) after := by rw [resultCode, run]
          exact EStateM.ends_of_error stopped ⟨site, rfl⟩

end

theorem storageInsertItem_onlyAborts (key : Option (List UInt8)) (internalId : Nat) :
    OnlyAborts (storageInsertItem key internalId) := by
  refine onlyAborts_get.bind fun store => OnlyAborts.bind ?_ fun item => onlyAborts_modify _
  intro state
  unfold storageItemNew
  split
  · exact EStateM.ends_of_ok rfl trivial
  · exact EStateM.ends_of_error rfl ⟨_, rfl⟩
  · exact EStateM.ends_of_error rfl ⟨_, rfl⟩

theorem storageGetItem_onlyAborts (key : List UInt8) : OnlyAborts (storageGetItem key true) := by
  refine onlyAborts_get.bind fun store => ?_
  split
  · exact onlyAborts_pure _
  · rw [if_pos rfl]
    exact (onlyAborts_require _ _).bind fun _ => (storageInsertItem_onlyAborts _ _).bind fun _ =>
      (onlyAborts_require _ _).bind fun _ => (onlyAborts_modify _).bind fun _ =>
      (onlyAborts_resultCode _).bind fun _ => onlyAborts_pure _

theorem storageWriteLoop_onlyAborts (points : List Point) : OnlyAborts (storageWriteLoop points) := by
  induction points with
  | nil => exact onlyAborts_pure _
  | cons point rest ih =>
      refine (onlyAborts_resultCode _).bind fun code => ?_
      cases code with
      | none => exact ih.bind fun later => onlyAborts_pure _
      | some err => exact onlyAborts_pure _

/-- The result of `storage_write` is in its value. -/
theorem storageWrite_onlyAborts (key : List UInt8) (points : List Point) : OnlyAborts (storageWrite key points) := by
  refine (storageGetItem_onlyAborts key).bind fun internalId => ?_
  intro store
  have loop := storageWriteLoop_onlyAborts points
  unfold onItem
  constructor
  · exact fun _ => trivial
  · intro failure after run
    split at run
    · cases run
      exact ⟨_, rfl⟩
    · split at run
      · cases run
      · rename_i stopped
        cases run
        exact (loop _).of_error stopped

/-- The timeseries of a storage are made of the points that it has accepted. -/
structure Recorded.Holds (s : Nat) (recorded : Recorded) (model : Model) : Prop where
  size : recorded.storage.initialTscBufSize = s
  models : ∃ keyBlocks dataBlocks, StorageModels recorded.storage keyBlocks dataBlocks model
  series : ∀ key series, model key = some series → series.Sound ∧ series.points = recorded.pointsOf key
  present : ∀ entry ∈ recorded.accepted, model entry.1 ≠ none

section
variable {s : Nat} {recorded after : Recorded} {model : Model}

theorem Recorded.pointsOf_append (storage : Storage) (key name : List UInt8) (points : List Point) :
    Recorded.pointsOf ⟨storage, recorded.accepted ++ points.map fun point => (name, point)⟩ key =
      recorded.pointsOf key ++ if name = key then points else [] := by
  rw [pointsOf, List.filter_append, List.map_append, pointsOf]
  congr 1
  split
  next same =>
    rw [List.filter_eq_self.mpr, List.map_map]
    · exact List.map_id points
    · intro entry member
      obtain ⟨point, _, rfl⟩ := List.mem_map.mp member
      exact decide_eq_true same
  next other =>
    rw [List.filter_eq_nil_iff.mpr, List.map_nil]
    intro entry member
    obtain ⟨point, _, rfl⟩ := List.mem_map.mp member
    simpa using other

/-- A key without a timeseries has no accepted points. -/
theorem Recorded.Holds.absent (holds : recorded.Holds s model) {key : List UInt8} (none : model key = none) :
    recorded.pointsOf key = [] := by
  rw [pointsOf, List.map_eq_nil_iff, List.filter_eq_nil_iff]
  intro entry member same
  exact holds.present entry member (of_decide_eq_true same ▸ none)

theorem Recorded.Holds.seriesOf (holds : recorded.Holds s model) (key : List UInt8) :
    (model.seriesOf key).Sound ∧ (model.seriesOf key).points = recorded.pointsOf key := by
  rw [Model.seriesOf]
  cases found : model key with
  | none => exact ⟨.empty, (holds.absent found).symm⟩
  | some series => exact holds.series key series found

/-- A call of `storage_write` that stores positive timestamps. -/
theorem Recorded.Holds.write (holds : recorded.Holds s model) (large : 4 < s) {key : List UInt8} (valid : ValidKey key)
    {point : Point} {written : Written} {storage : Storage}
    (run : storageWrite key [point] recorded.storage = .ok written storage)
    (positive : ∀ point ∈ written.stored, 0 < point.1.toInt) :
    Recorded.Holds s ⟨storage, recorded.accepted ++ written.stored.map fun point => (key, point)⟩
      (model.write s key written.stored) := by
  obtain ⟨sound, points⟩ := holds.seriesOf key
  obtain ⟨rfl, ⟨keyBlocks, dataBlocks, models⟩, series, present⟩ := holds
  obtain ⟨wrote, same, kept⟩ := (storageWrite_stored models valid large [point]).of_ok run positive
  refine ⟨same.initialTscBufSize, kept, ?_, ?_⟩
  · intro name later found
    rw [Recorded.pointsOf_append]
    by_cases here : name = key
    · subst here
      have value := (Model.write_self _ model name written.stored).symm.trans found
      rw [← Option.some.inj value, Series.points_addAll, points, if_pos rfl]
      exact ⟨(wrote.sound sound).1, rfl⟩
    · have old := (Model.write_of_ne _ model written.stored here).symm.trans found
      rw [if_neg (Ne.symm here), List.append_nil]
      exact series name later old
  · intro entry member
    rcases List.mem_append.mp member with old | new
    · by_cases here : entry.1 = key
      · rw [here, Model.write_self]
        exact Option.some_ne_none _
      · rw [Model.write_of_ne _ model written.stored here]
        exact present entry old
    · obtain ⟨point, _, rfl⟩ := List.mem_map.mp new
      rw [Model.write_self]
      exact Option.some_ne_none _

/-- While accepted timestamps are positive, the timeseries are made of the accepted points. -/
theorem recordingCalls_keeps {retentionSeconds : Int} (large : 4 < s) :
    KeptByWrites (recordingCalls retentionSeconds) fun recorded =>
      (∀ entry ∈ recorded.accepted, 0 < entry.2.1.toInt) → ∃ model, recorded.Holds s model where
  write := by
    intro key point before value after valid holds run positive
    unfold reported recordingCalls recordingWrite at run
    dsimp only at run
    cases result : storageWrite key [point] before.storage with
    | error failure storage =>
        obtain ⟨site, rfl⟩ := (storageWrite_onlyAborts key [point] before.storage).of_error result
        rw [result] at run
        cases run
    | ok written storage =>
        rw [result] at run
        cases run
        obtain ⟨old, new⟩ := List.forall_mem_append.mp positive
        obtain ⟨model, kept⟩ := holds old
        refine ⟨_, kept.write large valid result fun point member => ?_⟩
        exact new (key, point) (List.mem_map_of_mem member)

theorem PutRun.holds {retentionSeconds : Int} (large : 4 < s) (run : PutRun retentionSeconds s recorded) :
    (∀ entry ∈ recorded.accepted, 0 < entry.2.1.toInt) → ∃ model, recorded.Holds s model := by
  induction run with
  | @init memory store run =>
      intro _
      obtain ⟨after, names, again, size, _, none, holds⟩ := storageInit_new retentionSeconds s memory
      rw [run] at again
      obtain rfl : store = after := by
        cases again
        rfl
      refine ⟨fun _ => Option.none, size, ⟨names, [], holds.noModels none⟩, ?_, ?_⟩
      · intro key series found
        cases found
      · intro entry member
        cases member
  | put earlier now run ih => exact of_handleConnPutData (recordingCalls_keeps large) ih run

/-- What a restart after a sync leads to. -/
theorem Recorded.Holds.restarts (holds : recorded.Holds s model) (large : 4 < s) (small : s + 38 ≤ 2 ^ 20)
    (order : recorded.InOrder) {synced : Storage} (sync : storageSync recorded.storage = .ok () synced)
    (memory : Nat → Nat → UInt8) :
    (StorageOp.restart memory).run.Ends synced
      (fun _ after => after.initialTscBufSize = s ∧ ∃ names later loaded, StorageModels after names later loaded ∧
        ∀ entry ∈ recorded.accepted, ∃ series, loaded entry.1 = some series)
      (fun _ _ => ∃ entry ∈ recorded.accepted, entry.1.getD 0 0 = 0) := by
  obtain ⟨rfl, ⟨keyBlocks, dataBlocks, models⟩, series, present⟩ := holds
  obtain ⟨same, streams, later, kept⟩ := (storageSync_ends models).of_ok sync
  have ordered : model.sync.Ordered := by
    intro key copied found
    obtain ⟨old, before, rfl⟩ := Option.map_eq_some_iff.mp found
    obtain ⟨sound, points⟩ := series key old before
    refine (sound.sync (streams key old before)).ordered ?_
    change Increasing old.points
    rw [points]
    exact order.increasing key
  have size := same.initialTscBufSize
  apply ((StorageOp.restart memory).run_models kept (by rw [size]; exact large) trivial fun _ _ => ordered).mono
  · rintro written after ⟨config, _, names, later, loaded⟩
    refine ⟨config.initialTscBufSize.trans size, names, later, _, loaded, fun entry member => ?_⟩
    obtain ⟨old, before⟩ := Option.ne_none_iff_exists'.mp (present entry member)
    refine ⟨old.sync.reload, ?_⟩
    change model.sync.reload entry.1 = _
    rw [Model.reload, Model.sync, before, Option.map_some, Option.bind_some, if_neg]
    rintro ⟨_, none⟩
    cases none
  · rintro failure _ (⟨_, big⟩ | ⟨_, key, copied, found, text⟩)
    · omega
    · obtain ⟨old, before, rfl⟩ := Option.map_eq_some_iff.mp found
      have some : recorded.pointsOf key ≠ [] := by
        rw [← (series key old before).2]
        exact List.append_ne_nil_of_right_ne_nil _ (streams key old before)
      obtain ⟨point, member⟩ := List.exists_mem_of_ne_nil _ some
      obtain ⟨entry, inside, _⟩ := List.mem_map.mp member
      obtain ⟨accepted, here⟩ := List.mem_filter.mp inside
      exact ⟨entry, accepted, by rw [of_decide_eq_true here]; exact text⟩

end

/-- After a sync, a restart finds every key of the put requests if and only if none of them starts with a zero byte. -/
theorem putRun_loads_iff {retentionSeconds : Int} {recorded : Recorded} {synced : Storage}
    (run : PutRun retentionSeconds defaultTscBufSize recorded) (order : recorded.InOrder)
    (sync : storageSync recorded.storage = .ok () synced) :
    recorded.Loads synced ↔ ∀ entry ∈ recorded.accepted, entry.1.getD 0 0 ≠ 0 := by
  obtain ⟨model, holds⟩ := run.holds (by decide) order.positive
  have ends := holds.restarts (by decide) (by decide) order sync
  constructor
  · intro loads entry member
    obtain ⟨written, after, restart, _⟩ := loads fun _ _ => 0
    obtain ⟨_, names, later, loaded, models, all⟩ := (ends _).of_ok restart
    obtain ⟨series, found⟩ := all entry member
    obtain ⟨item, there, named, _⟩ := models.find found
    obtain ⟨_, _, start, restart⟩ := EStateM.of_bind_ok restart
    cases start
    obtain ⟨_, _, init, ended⟩ := EStateM.of_bind_ok restart
    cases ended
    exact storageInit_keysStart init item there entry.1 named
  · intro letters memory
    obtain ⟨written, after, restart, size, names, later, loaded, models, all⟩ := (ends memory).returns (by
      rintro _ _ ⟨entry, member, text⟩
      exact letters entry member text)
    refine ⟨written, after, restart, fun entry member => ?_⟩
    obtain ⟨series, found⟩ := all entry member
    exact ⟨series.points, models.reads (by rw [size]; decide) found⟩

/-- A connection with one point in a put request. -/
def putConn (key : List UInt8) (point : Point) (storage : Recorded) : Conn Recorded :=
  { ss := { structuredStreamNew 4096 4096 (fun _ => 0) with incoming := putRequest [(key, [point])] }
    hasValidConfig := false, storage, clusterConfig := none, clusterConfigHash := [] }

/-- One point is put and synced. -/
def putAndSync (key : List UInt8) (point : Point) (check : Storage → Bool) : Bool :=
  (storageInit 10 defaultTscBufSize (fun _ _ => 0) newStorage).passes fun _ store =>
    (handleConnPutData (recordingCalls 10) 12 (putConn key point ⟨store, []⟩)).passes fun _ data =>
      data.storage.accepted = [(key, point)] ∧ (storageSync data.storage.storage).passes fun _ synced => check synced

theorem of_putAndSync {key : List UInt8} {point : Point} {check : Storage → Bool}
    (passed : putAndSync key point check = true) (positive : 0 < point.1.toInt) :
    ∃ recorded synced, PutRun 10 defaultTscBufSize recorded ∧ recorded.accepted = [(key, point)] ∧ recorded.InOrder ∧
      storageSync recorded.storage = .ok () synced ∧ check synced = true := by
  obtain ⟨_, store, opened, passed⟩ := EStateM.Result.of_passes passed
  obtain ⟨_, data, put, passed⟩ := EStateM.Result.of_passes passed
  obtain ⟨accepted, passed⟩ := of_decide_eq_true passed
  obtain ⟨_, synced, sync, checked⟩ := EStateM.Result.of_passes passed
  have start : PutRun 10 defaultTscBufSize (putConn key point ⟨store, []⟩).storage := .init _ opened
  refine ⟨data.storage, synced, start.put 12 put, accepted, ?_, sync, checked⟩
  constructor
  · intro entry member
    rw [accepted, List.mem_singleton] at member
    rw [member]
    exact positive
  · intro name
    rw [Recorded.pointsOf, accepted]
    exact (List.pairwise_singleton _ point).sublist ((List.filter_sublist (l := [(key, point)])).map Prod.snd)

/-- A key that is a letter is found. -/
theorem putRun_loads_letter :
    ∃ recorded synced, PutRun 10 defaultTscBufSize recorded ∧ recorded.accepted = [([97], (5#64, 7#64))] ∧
      (recorded.Loads synced ↔ ∀ entry ∈ recorded.accepted, entry.1.getD 0 0 ≠ 0) := by
  have passed : putAndSync [97] (5#64, 7#64) (fun _ => true) = true := by
    decide +kernel
  obtain ⟨recorded, synced, run, accepted, order, sync, _⟩ := of_putAndSync passed (by decide)
  exact ⟨recorded, synced, run, accepted, putRun_loads_iff run order sync⟩

/-- A label set without a name stops the loader. -/
theorem putRun_nameless :
    encodeBinaryLfm ⟨none, [⟨⟨[104], by decide⟩, ⟨[97], by decide⟩⟩]⟩ = .ok [0, 104, 0, 97] ∧
      ∃ recorded synced after, PutRun 10 defaultTscBufSize recorded ∧
        recorded.accepted = [([0, 104, 0, 97], (5#64, 7#64))] ∧ recorded.InOrder ∧
        storageSync recorded.storage = .ok () synced ∧
        (StorageOp.restart fun _ _ => 0).run synced = .error (.abort .storageLoadKey) after ∧ ¬ recorded.Loads synced := by
  have passed : putAndSync [0, 104, 0, 97] (5#64, 7#64) (fun synced =>
      ((StorageOp.restart fun _ _ => 0).run synced).failsWith (.abort .storageLoadKey)) = true := by
    decide +kernel
  obtain ⟨recorded, synced, run, accepted, order, sync, failed⟩ := of_putAndSync passed (by decide)
  obtain ⟨after, stopped⟩ := EStateM.Result.of_failsWith failed
  refine ⟨by decide, recorded, synced, after, run, accepted, order, sync, stopped, fun loads => ?_⟩
  obtain ⟨written, final, restart, _⟩ := loads fun _ _ => 0
  rw [stopped] at restart
  cases restart

end Menoetius
