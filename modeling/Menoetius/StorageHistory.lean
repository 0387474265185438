import Menoetius.StorageReload

/-
This file follows the timeseries of a storage through a whole run.
-/

namespace Menoetius
open LittleEndian

/-- What a call that has returned does to the timeseries. -/
def Model.after (s : Nat) (retentionSeconds : Int) (model : Model) (event : Event) : Model :=
  match event.op with
  | .write key _ => model.write s key event.written.stored
  | .sync => if event.written.err = none then model.sync else model
  | .clean now => model.clean (now - retentionSeconds)
  | .restart _ => model.reload

/-- The timeseries after a run. -/
def modelOf (s : Nat) (retentionSeconds : Int) (events : List Event) : Model :=
  events.foldl (Model.after s retentionSeconds) fun _ => none

@[simp] theorem modelOf_nil (s : Nat) (retentionSeconds : Int) : modelOf s retentionSeconds [] = fun _ => none := rfl

@[simp] theorem modelOf_concat (s : Nat) (retentionSeconds : Int) (events : List Event) (event : Event) :
    modelOf s retentionSeconds (events ++ [event]) =
      (modelOf s retentionSeconds events).after s retentionSeconds event := by
  rw [modelOf, List.foldl_append]
  rfl

/-- What is known of the result of a call. -/
def Model.Explains (s : Nat) (model : Model) (event : Event) : Prop :=
  match event.op with
  | .write key points => WriteRun s (model.seriesOf key) points event.written
  | .sync => event.written.stored = [] ∧
      (event.written.err = none → ∀ key series, model key = some series → series.stream ≠ [])
  | _ => event.written = ⟨[], none⟩

/-- How a call can fail to return. -/
def StorageOp.FailsOn (s : Nat) (model : Model) (failure : Failure) : StorageOp → Prop
  | .write key points => StorageWriteStops s (model.seriesOf key) points failure
  | .sync => ∃ site, failure = .abort site ∧ SyncStops model site
  | .clean _ => False
  | .restart _ => (failure = .code (.res 2) ∧ 2 ^ 20 < s + 38) ∨
      (failure = .abort .storageLoadKey ∧ ∃ key series, model key = some series ∧ key.getD 0 0 = 0)

section
variable {store : Storage} {keyBlocks dataBlocks : List Block} {model : Model}

/-- `storage_init` on the directory of a storage whose blocks are in order. -/
theorem storageInit_models (models : StorageModels store keyBlocks dataBlocks model) (ordered : model.Ordered)
    (memory : Nat → Nat → UInt8) :
    (storageInit store.retentionSeconds store.initialTscBufSize memory).Ends store
      (fun _ after => SameConfig store after ∧ ∃ names, StorageModels after names dataBlocks model.reload)
      (fun failure _ => (StorageOp.restart memory).FailsOn store.initialTscBufSize model failure) := by
  have directory := models.directory fun item _ kept => by
    obtain ⟨_, _, _, _, holds⟩ := kept
    exact holds.owns (blockAt_zero dataBlocks)
  apply (storageInit_ends directory store.retentionSeconds memory).mono
  · rintro _ after ⟨size, retention, names, loaded, fewer⟩
    exact ⟨⟨size, retention⟩, names, models.reload ordered loaded size fewer⟩
  · intro failure _ failed
    have elsewhere := (models.newestActive ordered).loads failed
    rcases failed with (⟨code, large⟩ | ⟨last, _⟩) | ⟨site, offset, block, found, live, text⟩
    · refine Or.inl ⟨code, ?_⟩
      by_contra small
      exact large fun offset block there =>
        (models.dataBounded offset block there).trans (blockBound_le (Nat.le_of_not_lt small))
    · exact absurd last elsewhere
    · obtain ⟨item, member, rfl⟩ := models.keyOwned offset block found live
      obtain ⟨again, there, _, _, named, _⟩ := models.toStorageHolds.keyBlock member
      rw [found] at there
      rw [← Option.some.inj there] at named
      obtain ⟨key, series, named', kept, _⟩ := models.items item member
      rw [named] at named'
      rw [Option.some.inj named'] at text
      exact Or.inr ⟨site, key, series, kept, text⟩

/-- A call on a storage with these timeseries. -/
theorem StorageOp.run_models (models : StorageModels store keyBlocks dataBlocks model)
    (large : 4 < store.initialTscBufSize) (op : StorageOp) (valid : op.Valid)
    (ordered : ∀ memory, op = .restart memory → model.Ordered) :
    op.run.Ends store
      (fun written after => SameConfig store after ∧ model.Explains store.initialTscBufSize ⟨op, written⟩ ∧
        ∃ names later, StorageModels after names later
          (model.after store.initialTscBufSize store.retentionSeconds ⟨op, written⟩))
      (fun failure _ => op.FailsOn store.initialTscBufSize model failure) := by
  cases op with
  | write key points =>
      apply (storageWrite_ends models valid.1 large points valid.2).mono
      · rintro written after ⟨run, same, names, later, kept⟩
        exact ⟨same, run, names, later, kept⟩
      · exact fun _ _ stopped => stopped
  | sync =>
      have ends : (resultCode storageSync).Ends store
          (fun err after => SameConfig store after ∧
            (err = none → ∀ key series, model key = some series → series.stream ≠ []) ∧
            ∃ later, StorageModels after keyBlocks later (if err = none then model.sync else model))
          (fun failure _ => ∃ site, failure = .abort site ∧ SyncStops model site) := by
        apply resultCode_ends
        apply (storageSync_ends models).mono
        · rintro _ after ⟨same, streams, later, kept⟩
          exact ⟨same, fun _ => streams, later, kept⟩
        · intro failure after failed
          cases failure with
          | code err =>
              obtain ⟨_, _, same, later, kept⟩ := failed
              exact ⟨same, by simp, later, kept⟩
          | abort site => exact ⟨site, rfl, failed⟩
      apply EStateM.Ends.bind ends
      rintro err after ⟨same, streams, later, kept⟩
      exact EStateM.ends_of_ok rfl ⟨same, ⟨rfl, streams⟩, keyBlocks, later, kept⟩
  | clean now =>
      obtain ⟨after, names, later, run, same, kept⟩ := models.clean now
      apply EStateM.ends_bind_ok run
      exact EStateM.ends_of_ok rfl ⟨same, rfl, names, later, kept⟩
  | restart memory =>
      apply EStateM.ends_bind_ok (EStateM.get_apply store)
      apply EStateM.Ends.bind (storageInit_models models (ordered memory rfl) memory)
      rintro _ after ⟨same, names, kept⟩
      exact EStateM.ends_of_ok rfl ⟨same, rfl, names, dataBlocks, kept⟩

end

/-- The calls of a run and their results, with a condition on each call. -/
inductive History (s : Nat) (retentionSeconds : Int) (meets : List Event → StorageOp → Prop) : List Event → Prop
  | nil : History s retentionSeconds meets []
  | step {events : List Event} (earlier : History s retentionSeconds meets events) (event : Event)
      (allowed : meets events event.op) (explained : (modelOf s retentionSeconds events).Explains s event) :
      History s retentionSeconds meets (events ++ [event])

/-- A storage without items has no timeseries. -/
theorem StorageHolds.noModels {keeps : (Nat → Option Block) → StorageItem → Prop} {store : Storage}
    {keyBlocks dataBlocks : List Block} (holds : StorageHolds keeps store keyBlocks dataBlocks)
    (none : store.items = []) : StorageModels store keyBlocks dataBlocks fun _ => Option.none := by
  refine ⟨holds.mono ?_, ?_⟩
  · intro item member
    rw [none] at member
    cases member
  · intro key series found
    cases found

section
variable {s : Nat} {retentionSeconds : Int} {meets : List Event → StorageOp → Prop} {events : List Event}
  {store : Storage}

/-- The storage after a run has the timeseries of its history. A condition on the storage before a call becomes one
on its timeseries. -/
theorem StorageRun.models_of {allowed : List Event → Storage → StorageOp → Prop} (large : 4 < s)
    (valid : ∀ events op, meets events op → op.Valid)
    (ordered : ∀ events memory, History s retentionSeconds meets events → meets events (.restart memory) →
      (modelOf s retentionSeconds events).Ordered)
    (explains : ∀ events store op keyBlocks dataBlocks, History s retentionSeconds meets events →
      StorageModels store keyBlocks dataBlocks (modelOf s retentionSeconds events) → allowed events store op →
        meets events op)
    (run : StorageRun retentionSeconds s allowed events store) :
    store.initialTscBufSize = s ∧ store.retentionSeconds = retentionSeconds ∧
      History s retentionSeconds meets events ∧
      ∃ names later, StorageModels store names later (modelOf s retentionSeconds events) := by
  induction run with
  | @init memory store run =>
      obtain ⟨after, names, again, size, retention, none, holds⟩ := storageInit_new retentionSeconds s memory
      rw [run] at again
      obtain rfl : store = after := by
        cases again
        rfl
      exact ⟨size, retention, .nil, names, [], holds.noModels none⟩
  | @step events store after earlier op allowed written run ih =>
      obtain ⟨size, retention, history, names, later, models⟩ := ih
      subst size retention
      have met := explains _ _ _ _ _ history models allowed
      obtain ⟨same, explained, names', later', kept⟩ := (op.run_models models large (valid _ _ met) (by
        rintro memory rfl
        exact ordered _ _ history met)).of_ok run
      refine ⟨same.initialTscBufSize, same.retentionSeconds, history.step ⟨op, written⟩ met explained, names',
        later', ?_⟩
      rw [modelOf_concat]
      exact kept

theorem StorageRun.models (large : 4 < s) (valid : ∀ events op, meets events op → op.Valid)
    (ordered : ∀ events memory, History s retentionSeconds meets events → meets events (.restart memory) →
      (modelOf s retentionSeconds events).Ordered)
    (run : StorageRun retentionSeconds s (fun events _ op => meets events op) events store) :
    store.initialTscBufSize = s ∧ store.retentionSeconds = retentionSeconds ∧
      History s retentionSeconds meets events ∧
      ∃ names later, StorageModels store names later (modelOf s retentionSeconds events) :=
  run.models_of large valid ordered fun _ _ _ _ _ _ _ meets => meets

end

end Menoetius
