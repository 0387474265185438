import Menoetius.StorageState

/-
This file describes a storage by the timeseries of its keys, and follows writes and syncs on it.
-/

namespace Menoetius
open LittleEndian

/-- The timeseries of the keys that have one. -/
abbrev Model := List UInt8 → Option Series

/-- The item of a key keeps the timeseries of the key. -/
def Keeps (s : Nat) (model : Model) (content : Nat → Option Block) (item : StorageItem) : Prop :=
  ∃ key series, item.key = some key ∧ model key = some series ∧ ItemHolds s content item series

/-- The storage keeps exactly these timeseries. -/
structure StorageModels (store : Storage) (keyBlocks dataBlocks : List Block) (model : Model) : Prop extends
    StorageHolds (Keeps store.initialTscBufSize model) store keyBlocks dataBlocks where
  present : ∀ key series, model key = some series → ∃ item ∈ store.items, item.key = some key

/-- The settings of the process do not change. -/
structure SameConfig (store after : Storage) : Prop where
  initialTscBufSize : after.initialTscBufSize = store.initialTscBufSize
  retentionSeconds : after.retentionSeconds = store.retentionSeconds

theorem SameConfig.refl (store : Storage) : SameConfig store store := ⟨rfl, rfl⟩

theorem SameConfig.trans {first second third : Storage} (start : SameConfig first second)
    (rest : SameConfig second third) : SameConfig first third :=
  ⟨rest.initialTscBufSize.trans start.initialTscBufSize, rest.retentionSeconds.trans start.retentionSeconds⟩

section
variable {store : Storage} {keyBlocks dataBlocks later : List Block} {model : Model} {item : StorageItem}
  {state : ItemStore} {key : List UInt8} {series changed : Series}

theorem StorageModels.absent (models : StorageModels store keyBlocks dataBlocks model) (none : model key = none) :
    ∀ item ∈ store.items, item.key ≠ some key := by
  intro item member named
  obtain ⟨other, series, named', found, _⟩ := models.items item member
  rw [named] at named'
  rw [← Option.some.inj named', none] at found
  cases found

/-- The item of a key with a timeseries. -/
theorem StorageModels.find (models : StorageModels store keyBlocks dataBlocks model)
    (found : model key = some series) :
    ∃ item ∈ store.items, item.key = some key ∧
      ItemHolds store.initialTscBufSize (blockAt dataBlocks) item series := by
  obtain ⟨item, member, named⟩ := models.present key series found
  obtain ⟨other, kept, named', found', holds⟩ := models.items item member
  rw [named] at named'
  rw [← Option.some.inj named', found] at found'
  rw [← Option.some.inj found'] at holds
  exact ⟨item, member, named, holds⟩

/-- A change of one item changes the timeseries of its key. -/
theorem StorageModels.withItem (models : StorageModels store keyBlocks dataBlocks model) (member : item ∈ store.items)
    (named : item.key = some key)
    (step : ItemStep store.initialTscBufSize dataBlocks later ⟨item, store.dataDiskStore⟩ state changed) :
    StorageModels (store.withItem state) keyBlocks later (Function.update model key (some changed)) := by
  have named' : state.item.key = some key := step.key.trans named
  constructor
  · refine models.toStorageHolds.withItem member step.toItemChange
      ⟨key, changed, named', Function.update_self _ _ _, step.item⟩ ?_
    rintro other present elsewhere ⟨name, series, otherNamed, found, holds⟩
    refine ⟨name, series, otherNamed, ?_, holds.frame elsewhere step.frame⟩
    rw [Function.update_of_ne, found]
    rintro rfl
    have same := eq_of_nodup_map models.keysDistinct present member (otherNamed.trans named.symm)
    rw [same] at elsewhere
    exact elsewhere rfl
  · intro name series found
    have members := fun other => @mem_withItem store item state member step.internalId other
    by_cases here : name = key
    · exact ⟨state.item, (members _).mpr (Or.inl rfl), by rw [here]; exact named'⟩
    · rw [Function.update_of_ne here] at found
      obtain ⟨other, present, otherNamed⟩ := models.present name series found
      refine ⟨other, (members _).mpr (Or.inr ⟨present, ?_⟩), otherNamed⟩
      intro same
      rw [eq_of_nodup_map models.ids present member same, named] at otherNamed
      exact here (Option.some.inj otherNamed).symm

/-- An item without points keeps the empty timeseries. -/
theorem ItemHolds.fresh {s internalId offset : Nat} {content : Nat → Option Block} {data : TscHeader}
    (stream : BlockHolds data []) (dataLen : data.dataLen = s) (small : internalId < 2 ^ 63)
    (unused : ∀ offset block, content offset = some block → block.Live → carriedId block ≠ internalId) :
    ItemHolds s content ⟨internalId, some key, data, offset, []⟩ .empty where
  small := small
  stream := stream
  dataLen := dataLen
  entries := ⟨[], [], rfl, .nil, .unused rfl rfl⟩
  distinct := List.nodup_nil
  owned := fun offset block found live carried => absurd carried (unused offset block found live)
  positive := by
    intro point member
    cases member

/-- A new item has the empty timeseries. -/
theorem StorageModels.withNew (models : StorageModels store keyBlocks dataBlocks model) (valid : ValidKey key)
    (none : model key = none) {data : TscHeader} {offset : Nat} {disk : DiskStorage}
    (wrote : KeyWrote store keyBlocks key data offset disk later) :
    StorageModels (store.withNew key data offset disk) later dataBlocks
      (Function.update model key (some .empty)) := by
  have fresh := models.absent none
  constructor
  · refine models.toStorageHolds.withNew valid fresh wrote
      ⟨key, .empty, rfl, Function.update_self _ _ _,
        .fresh wrote.stream wrote.dataLen models.next fun _ _ found live => models.unused found live⟩ ?_
    rintro other present ⟨name, series, named, found, holds⟩
    refine ⟨name, series, named, ?_, holds⟩
    rw [Function.update_of_ne, found]
    rintro rfl
    exact fresh other present named
  · intro name series found
    by_cases here : name = key
    · exact ⟨_, List.mem_append_right _ List.mem_cons_self, by rw [here]⟩
    · rw [Function.update_of_ne here] at found
      obtain ⟨other, present, named⟩ := models.present name series found
      exact ⟨other, List.mem_append_left _ present, named⟩

/-- How a call of `storage_write` can stop the process. -/
def StorageWriteStops (s : Nat) (series : Series) (points : List Point) (failure : Failure) : Prop :=
  NewItemStops s failure ∨ ∃ site front point back, failure = .abort site ∧
    points = front ++ point :: back ∧ WriteStops s (series.addAll s front) point site

/-- The timeseries that a write to a key starts from. -/
def Model.seriesOf (model : Model) (key : List UInt8) : Series := (model key).getD .empty

/-- The model after points of a key have been stored. -/
def Model.write (s : Nat) (model : Model) (key : List UInt8) (stored : List Point) : Model :=
  Function.update model key (some ((model.seriesOf key).addAll s stored))

/-- Writing to the item of a key. -/
theorem storageWriteItem_stored (models : StorageModels store keyBlocks dataBlocks model) (member : item ∈ store.items)
    (named : item.key = some key) (found : model key = some series) (points : List Point) :
    (onItem item.internalId (storageWriteLoop points)).Ends store
      (fun written after => (∀ point ∈ written.stored, 0 < point.1.toInt) →
        WriteRun store.initialTscBufSize series points written ∧ SameConfig store after ∧
        ∃ later, StorageModels after keyBlocks later
          (Function.update model key (some (series.addAll store.initialTscBufSize written.stored))))
      (fun failure _ => (∀ point ∈ points, 0 < point.1.toInt) →
        StorageWriteStops store.initialTscBufSize series points failure) := by
  obtain ⟨other, present, otherNamed, holds⟩ := models.find found
  obtain rfl := eq_of_nodup_map models.keysDistinct present member (otherNamed.trans named.symm)
  have item : ItemAt store.initialTscBufSize dataBlocks ⟨other, store.dataDiskStore⟩ series :=
    ⟨models.dataDisk, models.dataQuiet, holds⟩
  apply (onItem_ends models.ids member (storageWriteLoop_stored points item)).mono
  · rintro written after ⟨state, done, rfl⟩ positive
    obtain ⟨run, later, step⟩ := done positive
    exact ⟨run, ⟨rfl, rfl⟩, later, models.withItem member named step⟩
  · rintro failure after ⟨state, stopped, rfl⟩ positive
    exact Or.inr (stopped positive)

/-- A call of `storage_write` that stores positive timestamps only. -/
theorem storageWrite_stored (models : StorageModels store keyBlocks dataBlocks model) (valid : ValidKey key)
    (large : 4 < store.initialTscBufSize) (points : List Point) :
    (storageWrite key points).Ends store
      (fun written after => (∀ point ∈ written.stored, 0 < point.1.toInt) →
        WriteRun store.initialTscBufSize (model.seriesOf key) points written ∧
        SameConfig store after ∧ ∃ names later,
          StorageModels after names later (model.write store.initialTscBufSize key written.stored))
      (fun failure _ => (∀ point ∈ points, 0 < point.1.toInt) →
        StorageWriteStops store.initialTscBufSize (model.seriesOf key) points failure) := by
  unfold storageWrite Model.write Model.seriesOf
  cases found : model key with
  | some series =>
      obtain ⟨item, member, named, _⟩ := models.find found
      apply EStateM.ends_bind_ok (storageGetItem_present models.keysDistinct member named true)
      apply (storageWriteItem_stored models member named found points).mono
      · intro written after done positive
        obtain ⟨run, same, later, kept⟩ := done positive
        exact ⟨run, same, keyBlocks, later, kept⟩
      · exact fun _ _ stopped => stopped
  | none =>
      apply EStateM.Ends.bind ((storageGetItem_new models.toStorageHolds valid large (models.absent found)).mono
        (fun _ _ done => done) fun _ _ stopped _ => Or.inl stopped)
      rintro _ middle ⟨rfl, data, offset, disk, names, wrote, rfl⟩
      have begun := models.withNew valid found wrote
      have ends := storageWriteItem_stored begun (List.mem_append_right _ List.mem_cons_self) rfl
        (Function.update_self _ _ _) points
      apply ends.mono
      · intro written after done positive
        obtain ⟨run, same, later, kept⟩ := done positive
        rw [Function.update_idem] at kept
        exact ⟨run, ⟨same.initialTscBufSize, same.retentionSeconds⟩, names, later, kept⟩
      · exact fun _ _ stopped => stopped

theorem storageWrite_leading {points : List Point} {written : Written} {after : Storage}
    (run : storageWrite key points store = .ok written after) : written.stored <+: points := by
  obtain ⟨internalId, middle, _, run⟩ := EStateM.of_bind_ok run
  unfold onItem at run
  split at run
  · cases run
  · split at run
    · rename_i wrote
      cases run
      exact storageWriteLoop_leading points wrote
    · cases run

/-- A call of `storage_write`. -/
theorem storageWrite_ends (models : StorageModels store keyBlocks dataBlocks model) (valid : ValidKey key)
    (large : 4 < store.initialTscBufSize) (points : List Point) (positive : ∀ point ∈ points, 0 < point.1.toInt) :
    (storageWrite key points).Ends store
      (fun written after => WriteRun store.initialTscBufSize (model.seriesOf key) points written ∧
        SameConfig store after ∧ ∃ names later,
          StorageModels after names later (model.write store.initialTscBufSize key written.stored))
      (fun failure _ => StorageWriteStops store.initialTscBufSize (model.seriesOf key) points failure) := by
  have ends := storageWrite_stored models valid large points
  constructor
  · intro written after run
    exact ends.of_ok run fun point member => positive point ((storageWrite_leading run).subset member)
  · exact fun run => ends.of_error run positive

/-- The model after all timeseries have been copied to disk. -/
def Model.sync (model : Model) : Model := fun key => (model key).map Series.sync

/-- How a sync can stop the process. -/
def SyncStops (model : Model) (site : Abort) : Prop :=
  (site = .storageWriteDiskPoints ∧ ∃ key series, model key = some series ∧ series.stream = []) ∨
    DiskFull (.abort site)

/-- How a sync can fail. No block is large enough for the copy when it returns a code. -/
def SyncFails (store after : Storage) (keyBlocks : List Block) (model : Model) : Failure → Prop
  | .code err => err = .res 1 ∧ 2 ^ 26 < store.initialTscBufSize + 38 ∧ SameConfig store after ∧
      ∃ later, StorageModels after keyBlocks later model
  | .abort site => SyncStops model site

/-- A copy of the open block fits the largest block. -/
theorem ItemHolds.copyFits {s : Nat} {content : Nat → Option Block} {points : List Point}
    (holds : ItemHolds s content item series) (copy : series.active = some points) : s + 38 ≤ 2 ^ 26 := by
  obtain ⟨front, last, _, _, open_⟩ := holds.entries
  cases open_ with
  | unused first none =>
      rw [none] at copy
      cases copy
  | unwritten startTime none =>
      rw [none] at copy
      cases copy
  | written entry other block found data copy' start part =>
      obtain ⟨p, rest, image, size, payload⟩ := data.image
      have known : (block.pool : Nat) < 20 := block.pool.isLt
      have whole : block.payload.length ≤ 2 ^ 26 := by
        rw [block.whole, getPoolSize]
        exact Nat.pow_le_pow_right (by omega) (by unfold minDiskPowTwo; omega)
      rw [payload] at whole
      simp only [Bool.false_eq_true, if_false, List.length_append, bytesOf_length, tscSerializeHeader_length,
        image.toBytes_length, size, tscHeaderSerializationSize] at whole
      omega

/-- The loop of `storage_sync` over some of the items. -/
theorem storageSyncLoop_ends (targets : List StorageItem) :
    ∀ {store : Storage} {dataBlocks : List Block} {model : Model},
      StorageModels store keyBlocks dataBlocks model →
      (∀ target ∈ targets, ∃ item ∈ store.items, item.internalId = target.internalId ∧ item.key = target.key) →
      (storageSyncLoop (targets.map StorageItem.internalId)).Ends store
        (fun _ after => SameConfig store after ∧
          (∀ target ∈ targets, ∀ key series, target.key = some key → model key = some series →
            series.stream ≠ []) ∧
          ∃ later synced, StorageModels after keyBlocks later synced ∧ ∀ key,
            synced key = if ∃ target ∈ targets, target.key = some key then (model key).map Series.sync
              else model key)
        (fun failure after => SyncFails store after keyBlocks model failure) := by
  induction targets with
  | nil =>
      intro store dataBlocks model models _
      refine EStateM.ends_of_ok rfl ⟨.refl store, by simp, dataBlocks, model, models, by simp⟩
  | cons target targets ih =>
      intro store dataBlocks model models inside
      obtain ⟨⟨item, member, same, named⟩, rest⟩ := List.forall_mem_cons.mp inside
      obtain ⟨key, series, itemNamed, found, holds⟩ := models.items item member
      have at_ : ItemAt store.initialTscBufSize dataBlocks ⟨item, store.dataDiskStore⟩ series :=
        ⟨models.dataDisk, models.dataQuiet, holds⟩
      rw [List.map_cons, storageSyncLoop, ← same]
      apply EStateM.Ends.bind ((onItem_ends models.ids member (storageWriteDisk_ends at_ false)).mono
        (fun _ _ done => done) ?_)
      · rintro _ middle ⟨state, ⟨some, later, step⟩, rfl⟩
        have next := models.withItem member itemNamed step
        have unchanged : ∀ other ∈ targets, ∃ item ∈ (store.withItem state).items,
            item.internalId = other.internalId ∧ item.key = other.key := by
          intro other there
          obtain ⟨old, present, sameId, sameKey⟩ := rest other there
          have members := fun other => @mem_withItem store item state member step.internalId other
          by_cases here : old.internalId = item.internalId
          · obtain rfl := eq_of_nodup_map models.ids present member here
            exact ⟨state.item, (members _).mpr (Or.inl rfl), step.internalId.trans sameId, step.key.trans sameKey⟩
          · exact ⟨old, (members _).mpr (Or.inr ⟨present, here⟩), sameId, sameKey⟩
        apply (ih next unchanged).mono
        · rintro _ after ⟨config, streams, final, synced, kept, values⟩
          refine ⟨⟨config.initialTscBufSize, config.retentionSeconds⟩, ?_, final, synced, kept, ?_⟩
          · have others : ∀ name kept, model name = Option.some kept → name ≠ key →
                Function.update model key (Option.some (series.wrote false)) name = Option.some kept := by
              intro name kept here elsewhere
              rw [Function.update_of_ne elsewhere, here]
            intro other there name kept otherNamed here
            by_cases own : name = key
            · rw [own, found] at here
              rw [← Option.some.inj here]
              exact some
            · rcases List.mem_cons.mp there with rfl | later
              · rw [← named, itemNamed] at otherNamed
                exact absurd (Option.some.inj otherNamed).symm own
              · exact streams other later name kept otherNamed (others name kept here own)
          · intro name
            rw [values name]
            by_cases own : name = key
            · subst own
              have first : ∃ other ∈ target :: targets, other.key = Option.some name :=
                ⟨target, List.mem_cons_self, named.symm.trans itemNamed⟩
              rw [if_pos first, Function.update_self, found]
              split <;> rfl
            · have same : (∃ other ∈ target :: targets, other.key = Option.some name) ↔
                  ∃ other ∈ targets, other.key = Option.some name := by
                rw [List.exists_mem_cons_iff, ← named, itemNamed, or_iff_right]
                exact fun equal => own (Option.some.inj equal).symm
              rw [Function.update_of_ne own]
              exact if_congr same.symm rfl rfl
        · intro failure after failed
          cases failure with
          | code err =>
              have fits := step.item.copyFits rfl
              exact absurd failed.2.1 (Nat.not_lt.mpr fits)
          | abort site =>
              rcases failed with ⟨here, name, kept, value, empty⟩ | full
              · by_cases own : name = key
                · rw [own, Function.update_self] at value
                  rw [← Option.some.inj value] at empty
                  exact absurd empty some
                · rw [Function.update_of_ne own] at value
                  exact Or.inl ⟨here, name, kept, value, empty⟩
              · exact Or.inr full
      · rintro failure after ⟨state, failed, rfl⟩
        cases failure with
        | code err =>
            obtain ⟨code, large, step⟩ := failed
            have same := models.withItem member itemNamed step
            rw [← found, Function.update_eq_self] at same
            exact ⟨code, large, ⟨rfl, rfl⟩, dataBlocks, same⟩
        | abort site =>
            rcases failed with ⟨here, empty⟩ | full
            · exact Or.inl ⟨here, key, series, found, empty⟩
            · exact Or.inr full

/-- Every item is in the list. -/
theorem StorageModels.list (models : StorageModels store keyBlocks dataBlocks model) :
    store.list = store.items.map StorageItem.internalId := by
  unfold Storage.list
  rw [List.filter_eq_self.mpr]
  intro item member
  obtain ⟨key, _, named, _⟩ := models.items item member
  rw [named]
  rfl

/-- A call of `storage_sync`. -/
theorem storageSync_ends (models : StorageModels store keyBlocks dataBlocks model) :
    storageSync.Ends store
      (fun _ after => SameConfig store after ∧
        (∀ key series, model key = some series → series.stream ≠ []) ∧
        ∃ later, StorageModels after keyBlocks later model.sync)
      (fun failure after => SyncFails store after keyBlocks model failure) := by
  unfold storageSync
  apply EStateM.ends_bind_ok (EStateM.get_apply store)
  rw [models.list]
  apply (storageSyncLoop_ends store.items models fun item member => ⟨item, member, rfl, rfl⟩).mono
  · rintro _ after ⟨config, streams, later, synced, kept, values⟩
    refine ⟨config, ?_, later, ?_⟩
    · intro key series found
      obtain ⟨item, member, named⟩ := models.present key series found
      exact streams item member key series named found
    · have all : synced = model.sync := by
        funext key
        rw [values key, Model.sync]
        split
        · rfl
        · rename_i outside
          cases found : model key with
          | none => rfl
          | some series =>
              obtain ⟨item, member, named⟩ := models.present key series found
              exact absurd ⟨item, member, named⟩ outside
      rw [← all]
      exact kept
  · exact fun _ _ failed => failed

end

end Menoetius
