import Menoetius.StorageOrder

/-
This file shows what a storage keeps over restarts when the points of each key come in the order of time.
-/

namespace Menoetius

/-- The points of a key that were given to `storage_write`. -/
def submittedPoints (events : List Event) (key : List UInt8) : List Point :=
  events.flatMap fun event =>
    match event.op with
    | .write name points => if name = key then points else []
    | _ => []

theorem submittedPoints_concat (events : List Event) (event : Event) (key : List UInt8) :
    submittedPoints (events ++ [event]) key = submittedPoints events key ++ submittedPoints [event] key := by
  rw [submittedPoints, List.flatMap_append]
  rfl

theorem submittedPoints_write (key name : List UInt8) (points : List Point) (written : Written) :
    submittedPoints [⟨.write name points, written⟩] key = if name = key then points else [] := by
  simp [submittedPoints]

/-- A call that submits at least one point, and only points that are newer than those of the key before it. -/
def StorageOp.SubmitsNewer (events : List Event) : StorageOp → Prop
  | .write key points => ((ValidKey key ∧ ∀ point ∈ points, 0 < point.1.toInt) ∧ points ≠ []) ∧
      Increasing (submittedPoints events key ++ points)
  | _ => True

theorem StorageOp.SubmitsNewer.valid {events : List Event} {op : StorageOp} (meets : op.SubmitsNewer events) :
    op.Valid := by
  cases op with
  | write key points => exact meets.1.1
  | _ => exact trivial

namespace Series

/-- The points of the blocks on disk. -/
def diskPoints (series : Series) : List Point := series.complete.flatten ++ series.active.getD []

/-- No block on disk is empty, and the copy of the open block is older than the open block. -/
structure Sound (series : Series) : Prop where
  filled : ∀ points ∈ series.complete, points ≠ []
  copied : ∀ copy, series.active = some copy → copy ≠ [] ∧ copy <+: series.stream

theorem Sound.empty : Series.empty.Sound where
  filled := by
    intro points member
    cases member
  copied := by
    intro copy same
    cases same

/-- A full block that takes a point is not empty. -/
theorem Takes.stream_ne_nil {s : Nat} {series : Series} {point : Point} (takes : series.Takes s point)
    (full : series.Full s) : series.stream ≠ [] := by
  intro none
  rw [Takes, if_pos full] at takes
  rw [Full, none] at full
  rw [(admission_full s [] point).mpr full] at takes
  cases takes

theorem Sound.add {s : Nat} {series : Series} {point : Point} (sound : series.Sound)
    (takes : series.Takes s point) : (series.add s point).Sound := by
  unfold Series.add
  split
  · rename_i full
    constructor
    · intro points member
      rcases List.mem_append.mp member with before | last
      · exact sound.filled points before
      · rw [List.mem_singleton.mp last]
        exact takes.stream_ne_nil full
    · intro copy same
      cases same
  · refine ⟨sound.filled, fun copy same => ?_⟩
    obtain ⟨some, part⟩ := sound.copied copy same
    exact ⟨some, part.trans (List.prefix_append _ _)⟩

theorem Sound.sync {series : Series} (sound : series.Sound) (some : series.stream ≠ []) : series.sync.Sound where
  filled := sound.filled
  copied := by
    intro copy same
    rw [← Option.some.inj same]
    exact ⟨some, List.prefix_rfl⟩

theorem Sound.trim {series : Series} (sound : series.Sound) (t : Int) : (series.trim t).Sound where
  filled := fun points member => sound.filled points (List.mem_of_mem_drop member)
  copied := sound.copied

theorem Sound.reload {series : Series} (sound : series.Sound) : series.reload.Sound where
  filled := sound.filled
  copied := by
    intro copy same
    have copied : series.active = some copy := same
    refine ⟨(sound.copied copy copied).1, ?_⟩
    rw [Series.reload, copied]
    exact List.prefix_rfl

/-- What is on disk is the first part of the timeseries. -/
theorem Sound.diskPoints_start {series : Series} (sound : series.Sound) : series.diskPoints <+: series.points := by
  refine (List.prefix_append_right_inj _).mpr ?_
  cases copy : series.active with
  | none => exact List.nil_prefix
  | some points => exact (sound.copied points copy).2

/-- A stored point leaves the points on disk there. -/
theorem Sound.diskPoints_add {s : Nat} {series : Series} (sound : series.Sound) (point : Point) :
    series.diskPoints <+: (series.add s point).diskPoints := by
  unfold Series.add
  split
  · have flushed : ({ series.flush with stream := [point] } : Series).diskPoints = series.points := by
      simp [diskPoints, flush, points]
    rw [flushed]
    exact sound.diskPoints_start
  · exact List.prefix_rfl

/-- The first points of the blocks are among the points, in their order. -/
theorem heads_sublist (blocks : List (List Point)) : (blocks.filterMap List.head?).Sublist blocks.flatten := by
  induction blocks with
  | nil => exact List.Sublist.slnil
  | cons points rest ih =>
      rw [List.flatten_cons]
      cases points with
      | nil => exact ih
      | cons point more =>
          rw [List.filterMap_cons, List.head?_cons, List.cons_append]
          exact (ih.trans (List.sublist_append_right more rest.flatten)).cons_cons point

theorem flatten_blocks (series : Series) :
    (series.complete ++ series.active.toList).flatten = series.diskPoints := by
  rw [List.flatten_append, diskPoints]
  cases series.active with
  | none => rfl
  | some points => rw [Option.toList_some, List.flatten_singleton, Option.getD_some]

/-- The blocks of points in the order of time start one after the other. -/
theorem Sound.ordered {series : Series} (sound : series.Sound) (increasing : Increasing series.points) :
    series.Ordered := by
  have heads := heads_sublist (series.complete ++ series.active.toList)
  rw [flatten_blocks] at heads
  have times : series.startTimes = ((series.complete ++ series.active.toList).filterMap List.head?).map
      fun point => point.1.toInt := by
    rw [startTimes, List.map_filterMap]
  rw [Series.Ordered, times, List.pairwise_map]
  exact increasing.sublist (heads.trans sound.diskPoints_start.sublist)

end Series

theorem WriteRun.sound {s : Nat} {series : Series} {points : List Point} {written : Written}
    (run : WriteRun s series points written) (sound : series.Sound) :
    (series.addAll s written.stored).Sound ∧ series.diskPoints <+: (series.addAll s written.stored).diskPoints := by
  induction run with
  | nil series => exact ⟨sound, List.prefix_rfl⟩
  | take takes more ih =>
      obtain ⟨later, part⟩ := ih (sound.add takes)
      exact ⟨later, (sound.diskPoints_add _).trans part⟩
  | refuse refuses => exact ⟨sound, List.prefix_rfl⟩

/-- Every timeseries is made of points that were submitted for its key. -/
def Submitted (model : Model) (events : List Event) : Prop :=
  ∀ key series, model key = some series → series.Sound ∧ series.points.Sublist (submittedPoints events key)

/-- The points on disk of a key. -/
def Model.diskPoints (model : Model) (key : List UInt8) : List Point := ((model key).map Series.diskPoints).getD []

theorem submittedPoints_other {op : StorageOp} (written : Written) (key : List UInt8)
    (other : ∀ points, op ≠ .write key points) : submittedPoints [⟨op, written⟩] key = [] := by
  cases op with
  | write name points =>
      rw [submittedPoints_write, if_neg]
      rintro rfl
      exact other points rfl
  | _ => rfl

section
variable {s : Nat} {retentionSeconds : Int} {events : List Event} {model : Model}

theorem Submitted.seriesOf (submitted : Submitted model events) (key : List UInt8) :
    (model.seriesOf key).Sound ∧ (model.seriesOf key).points.Sublist (submittedPoints events key) := by
  rw [Model.seriesOf]
  cases found : model key with
  | none => exact ⟨.empty, List.nil_sublist _⟩
  | some series => exact submitted key series found

/-- What one call does to the points that were submitted. -/
theorem Submitted.step (submitted : Submitted model events) (event : Event) (explained : model.Explains s event) :
    Submitted (model.after s retentionSeconds event) (events ++ [event]) := by
  obtain ⟨op, written⟩ := event
  intro key series found
  rw [submittedPoints_concat]
  cases op with
  | write name points =>
      have run : WriteRun s (model.seriesOf name) points written := explained
      by_cases here : key = name
      · subst here
        have value : some ((model.seriesOf key).addAll s written.stored) = some series :=
          (Model.write_self s model key written.stored).symm.trans found
        obtain ⟨sound, part⟩ := submitted.seriesOf key
        rw [← Option.some.inj value, submittedPoints_write, if_pos rfl, Series.points_addAll]
        exact ⟨(run.sound sound).1, part.append run.stored_prefix.sublist⟩
      · have old : model key = some series := (Model.write_of_ne s model written.stored here).symm.trans found
        rw [submittedPoints_write, if_neg (Ne.symm here), List.append_nil]
        exact submitted key series old
  | sync =>
      rw [submittedPoints_other written key (by simp), List.append_nil]
      by_cases done : written.err = none
      · have synced : model.sync key = some series := by
          rw [← found]
          exact congrFun (if_pos done).symm key
        obtain ⟨old, before, rfl⟩ := Option.map_eq_some_iff.mp synced
        obtain ⟨sound, part⟩ := submitted key old before
        exact ⟨sound.sync (explained.2 done key old before), part⟩
      · have same : model key = some series := by
          rw [← found]
          exact congrFun (if_neg done).symm key
        exact submitted key series same
  | clean now =>
      rw [submittedPoints_other written key (by simp), List.append_nil]
      obtain ⟨old, before, kept⟩ := Option.bind_eq_some_iff.mp found
      obtain ⟨sound, part⟩ := submitted key old before
      split at kept
      · cases kept
      · rw [← Option.some.inj kept]
        refine ⟨sound.trim _, List.Sublist.trans ?_ part⟩
        exact (List.drop_sublist _ _).flatten.append_right _
  | restart memory =>
      rw [submittedPoints_other written key (by simp), List.append_nil]
      obtain ⟨old, before, kept⟩ := Option.bind_eq_some_iff.mp found
      obtain ⟨sound, part⟩ := submitted key old before
      split at kept
      · cases kept
      · rw [← Option.some.inj kept]
        exact ⟨sound.reload, sound.diskPoints_start.sublist.trans part⟩

theorem History.submitted {meets : List Event → StorageOp → Prop} (history : History s retentionSeconds meets events) :
    Submitted (modelOf s retentionSeconds events) events := by
  induction history with
  | nil =>
      intro key series found
      cases found
  | step earlier event allowed explained ih =>
      rw [modelOf_concat]
      exact ih.step event explained

/-- The submitted points of a key are in the order of time. -/
theorem History.submittedIncreasing {meets : List Event → StorageOp → Prop}
    (history : History s retentionSeconds meets events) (newer : ∀ events op, meets events op → op.SubmitsNewer events)
    (key : List UInt8) : Increasing (submittedPoints events key) := by
  induction history with
  | nil => exact List.Pairwise.nil
  | @step events earlier event allowed explained ih =>
      obtain ⟨op, written⟩ := event
      rw [submittedPoints_concat]
      by_cases here : ∃ points, op = .write key points
      · obtain ⟨points, rfl⟩ := here
        rw [submittedPoints_write, if_pos rfl]
        exact (newer _ _ allowed).2
      · rw [submittedPoints_other written key fun points same => here ⟨points, same⟩, List.append_nil]
        exact ih

/-- The blocks of each key are in the order of time. -/
theorem History.ordered {meets : List Event → StorageOp → Prop} (history : History s retentionSeconds meets events)
    (newer : ∀ events op, meets events op → op.SubmitsNewer events) : (modelOf s retentionSeconds events).Ordered := by
  intro key series found
  obtain ⟨sound, part⟩ := history.submitted key series found
  exact sound.ordered ((history.submittedIncreasing newer key).sublist part)

/-- Without a clean the points on disk stay there. -/
theorem Submitted.diskPoints_step (submitted : Submitted model events) (event : Event)
    (explained : model.Explains s event) (keeps : ∀ now, event.op ≠ .clean now) (key : List UInt8) :
    model.diskPoints key <+: (model.after s retentionSeconds event).diskPoints key := by
  obtain ⟨op, written⟩ := event
  cases op with
  | write name points =>
      have run : WriteRun s (model.seriesOf name) points written := explained
      by_cases here : key = name
      · subst here
        obtain ⟨sound, _⟩ := submitted.seriesOf key
        have grown := (run.sound sound).2
        have value : (model.after s retentionSeconds ⟨.write key points, written⟩) key = _ :=
          Model.write_self s model key written.stored
        rw [Model.diskPoints, Model.diskPoints, value, Option.map_some, Option.getD_some]
        rw [Model.seriesOf] at grown ⊢
        cases found : model key with
        | none => exact List.nil_prefix
        | some series =>
            rw [found] at grown
            exact grown
      · have value : (model.after s retentionSeconds ⟨.write name points, written⟩) key = model key :=
          Model.write_of_ne s model written.stored here
        rw [Model.diskPoints, Model.diskPoints, value]
  | sync =>
      by_cases done : written.err = none
      · have value : (model.after s retentionSeconds ⟨.sync, written⟩) key = (model key).map Series.sync :=
          congrFun (if_pos done) key
        rw [Model.diskPoints, Model.diskPoints, value]
        cases found : model key with
        | none => exact List.prefix_rfl
        | some series => exact (submitted key series found).1.diskPoints_start
      · have value : (model.after s retentionSeconds ⟨.sync, written⟩) key = model key := congrFun (if_neg done) key
        rw [Model.diskPoints, Model.diskPoints, value]
  | clean now => exact absurd rfl (keeps now)
  | restart memory =>
      have value : (model.after s retentionSeconds ⟨.restart memory, written⟩) key = model.reload key := rfl
      rw [Model.diskPoints, Model.diskPoints, value, Model.reload]
      cases found : model key with
      | none => exact List.prefix_rfl
      | some series =>
          rw [Option.bind_some]
          split
          · rename_i nothing
            rw [Option.map_some, Option.getD_some, Series.diskPoints, nothing.1, nothing.2]
            exact List.prefix_rfl
          · exact List.prefix_rfl

theorem History.diskPoints_mono {meets : List Event → StorageOp → Prop}
    (history : History s retentionSeconds meets events) (keeps : ∀ events now, ¬ meets events (.clean now))
    {front : List Event} (part : front <+: events) (key : List UInt8) :
    (modelOf s retentionSeconds front).diskPoints key <+: (modelOf s retentionSeconds events).diskPoints key := by
  induction history with
  | nil =>
      rw [List.prefix_nil.mp part]
  | @step events earlier event allowed explained ih =>
      rcases List.prefix_concat_iff.mp part with all | before
      · rw [all]
      · rw [modelOf_concat]
        refine (ih before).trans (earlier.submitted.diskPoints_step event explained ?_ key)
        intro now same
        rw [same] at allowed
        exact keeps _ _ allowed

/-- Every key with a timeseries was given to `storage_write`. -/
theorem History.named {meets : List Event → StorageOp → Prop} {named : List UInt8 → Prop}
    (history : History s retentionSeconds meets events)
    (writes : ∀ events key points, meets events (.write key points) → named key) :
    ∀ key series, modelOf s retentionSeconds events key = some series → named key := by
  induction history with
  | nil =>
      intro key series found
      cases found
  | @step events earlier event allowed explained ih =>
      intro key series found
      obtain ⟨op, written⟩ := event
      rw [modelOf_concat] at found
      cases op with
      | write name points =>
          by_cases here : key = name
          · rw [here]
            exact writes _ _ _ allowed
          · exact ih key series ((Model.write_of_ne s _ written.stored here).symm.trans found)
      | sync =>
          unfold Model.after at found
          dsimp only at found
          split at found
          · obtain ⟨old, before, _⟩ := Option.map_eq_some_iff.mp found
            exact ih key old before
          · exact ih key series found
      | clean now =>
          obtain ⟨old, before, _⟩ := Option.bind_eq_some_iff.mp found
          exact ih key old before
      | restart memory =>
          obtain ⟨old, before, _⟩ := Option.bind_eq_some_iff.mp found
          exact ih key old before

end

/-- A call of `storage_write` with newer points of a key that does not start with a zero byte, of `storage_sync` or
of `storage_init`. -/
def StorageOp.Durable (events : List Event) : StorageOp → Prop
  | .write key points => (StorageOp.write key points).SubmitsNewer events ∧ key.getD 0 0 ≠ 0
  | .clean _ => False
  | _ => True

theorem StorageOp.Durable.newer {events : List Event} {op : StorageOp} (meets : op.Durable events) :
    op.SubmitsNewer events := by
  cases op with
  | write key points => exact meets.1
  | _ => exact trivial

/-- A read with room enough returns these points. -/
def Reads (store : Storage) (key : List UInt8) (points : List Point) : Prop :=
  ∀ maxNumPts, points.length ≤ maxNumPts → ∃ after, storageGet key maxNumPts store = .ok points after

/-- A block of the key is on disk. -/
def OnDisk (store : Storage) (key : List UInt8) : Prop :=
  ∃ item ∈ store.items, item.key = some key ∧ ∃ entry ∈ item.dataOffsets, entry.offset ≠ 0

instance (store : Storage) (key : List UInt8) : Decidable (OnDisk store key) := by
  unfold OnDisk
  infer_instance

theorem Reads.unique {store : Storage} {key : List UInt8} {points others : List Point} (reads : Reads store key points)
    (again : Reads store key others) : points = others := by
  obtain ⟨first, run⟩ := reads (points.length + others.length) (Nat.le_add_right _ _)
  obtain ⟨second, run'⟩ := again (points.length + others.length) (Nat.le_add_left _ _)
  rw [run] at run'
  cases run'
  rfl

section
variable {store : Storage} {keyBlocks dataBlocks : List Block} {model : Model} {key : List UInt8}

theorem StorageModels.reads (models : StorageModels store keyBlocks dataBlocks model)
    (small : store.initialTscBufSize + 38 ≤ 2 ^ 20) {series : Series} (found : model key = some series) :
    Reads store key series.points := by
  intro maxNumPts few
  obtain ⟨pos, run⟩ := storageGet_run models small found maxNumPts few
  exact ⟨_, run⟩

theorem StorageModels.of_reads (models : StorageModels store keyBlocks dataBlocks model)
    (small : store.initialTscBufSize + 38 ≤ 2 ^ 20) {points : List Point} (reads : Reads store key points) :
    ∃ series, model key = some series ∧ points = series.points := by
  cases found : model key with
  | none =>
      obtain ⟨after, run⟩ := reads points.length le_rfl
      rw [storageGet_absent models found] at run
      cases run
  | some series => exact ⟨series, rfl, reads.unique (models.reads small found)⟩

/-- The keys with a block on disk are those that a restart keeps. -/
theorem StorageModels.onDisk_iff (models : StorageModels store keyBlocks dataBlocks model) :
    OnDisk store key ↔ ∃ series, model key = some series ∧ ¬ (series.complete = [] ∧ series.active = none) := by
  have zero := blockAt_zero dataBlocks
  constructor
  · rintro ⟨item, member, named, entry, inside, nonzero⟩
    obtain ⟨name, series, named', kept, holds⟩ := models.items item member
    rw [named] at named'
    rw [← Option.some.inj named'] at kept
    refine ⟨series, kept, ?_⟩
    rintro ⟨none, absent⟩
    have there : entry ∈ item.onDisk := List.mem_filter.mpr ⟨inside, by simpa using nonzero⟩
    obtain ⟨front, last, split, entries, open_⟩ := holds.onDisk zero
    rw [none, List.forall₂_nil_right_iff] at entries
    rcases open_ with ⟨nothing, _⟩ | ⟨_, _, _, _, copy, _⟩
    · rw [split, entries, nothing] at there
      cases there
    · rw [absent] at copy
      cases copy
  · rintro ⟨series, kept, some⟩
    obtain ⟨item, member, named, holds⟩ := models.find kept
    obtain ⟨entry, inside⟩ := holds.exists_onDisk zero some
    obtain ⟨present, nonzero⟩ := List.mem_filter.mp inside
    exact ⟨item, member, named, entry, present, by simpa using nonzero⟩

end

/-- A sync that returned zero puts all points of its time on disk. -/
theorem modelOf_synced {s : Nat} {retentionSeconds : Int} {front : List Event} {stored : List Point} {key : List UInt8}
    {series : Series}
    (found : modelOf s retentionSeconds (front ++ [⟨.sync, ⟨stored, none⟩⟩]) key = some series) :
    series.diskPoints = series.points ∧ series.active ≠ none := by
  rw [modelOf_concat] at found
  obtain ⟨old, _, rfl⟩ := Option.map_eq_some_iff.mp found
  exact ⟨rfl, Option.some_ne_none _⟩

/-- A restart keeps the first points of every key that has a block on disk, and among them all points that a read
returned after a sync. -/
theorem storageRun_durable {s : Nat} {retentionSeconds : Int} {events : List Event} {store : Storage}
    (large : 28 ≤ s) (small : s + 38 ≤ 2 ^ 20)
    (run : StorageRun retentionSeconds s (fun events _ op => op.Durable events) events store)
    (memory : Nat → Nat → UInt8) :
    ∃ written after, (StorageOp.restart memory).run store = .ok written after ∧
      (∀ key, OnDisk store key → ∃ points kept, Reads store key points ∧ Reads after key kept ∧ kept <+: points) ∧
      (∀ key maxNumPts, ¬ OnDisk store key → storageGet key maxNumPts after = .error (.code .lookupFailed) after) ∧
      ∀ front stored back synced key points, events = front ++ ⟨.sync, ⟨stored, none⟩⟩ :: back →
        StorageRun retentionSeconds s (fun events _ op => op.Durable events)
          (front ++ [⟨.sync, ⟨stored, none⟩⟩]) synced →
        Reads synced key points → ∃ kept, Reads after key kept ∧ points <+: kept := by
  have more : 4 < s := by omega
  have models : ∀ {events : List Event} {store : Storage},
      StorageRun retentionSeconds s (fun events _ op => op.Durable events) events store → _ :=
    fun run => run.models more (fun _ _ meets => meets.newer.valid)
      fun _ _ history _ => history.ordered fun _ _ meets => meets.newer
  obtain ⟨size, retention, history, names, later, models'⟩ := models run
  subst size
  have ordered := history.ordered fun _ _ meets => meets.newer
  have letters := @History.named _ _ _ _ (fun key => key.getD 0 0 ≠ 0) history fun _ _ _ meets => meets.2
  obtain ⟨written, after, restarted, same, _, names', later', loaded⟩ :=
    ((StorageOp.restart memory).run_models models' more trivial fun _ _ => ordered).returns (by
      rintro failure _ (⟨_, big⟩ | ⟨_, key, series, found, first⟩)
      · omega
      · exact letters key series found first)
  have small' : after.initialTscBufSize + 38 ≤ 2 ^ 20 := by
    rw [same.initialTscBufSize]
    exact small
  refine ⟨written, after, restarted, ?_, ?_, ?_⟩
  · intro key onDisk
    obtain ⟨series, found, some⟩ := models'.onDisk_iff.mp onDisk
    have reloaded : (modelOf store.initialTscBufSize retentionSeconds events).reload key = Option.some series.reload := by
      rw [Model.reload, found, Option.bind_some, if_neg some]
    exact ⟨series.points, series.diskPoints, models'.reads small found, loaded.reads small' reloaded,
      (history.submitted key series found).1.diskPoints_start⟩
  · intro key maxNumPts never
    refine storageGet_absent loaded ?_ maxNumPts
    change (modelOf store.initialTscBufSize retentionSeconds events).reload key = none
    rw [Model.reload]
    cases found : modelOf store.initialTscBufSize retentionSeconds events key with
    | none => rfl
    | some series =>
        rw [Option.bind_some, if_pos]
        by_contra some
        exact never (models'.onDisk_iff.mpr ⟨series, found, some⟩)
  · intro front stored back synced key points split early reads
    obtain ⟨size, _, history', _, _, models''⟩ := models early
    obtain ⟨series, found, rfl⟩ := models''.of_reads (by rw [size]; exact small) reads
    obtain ⟨all, copied⟩ := modelOf_synced found
    have part : front ++ [⟨.sync, ⟨stored, none⟩⟩] <+: events := by
      rw [split]
      exact ⟨back, by simp⟩
    have grown := history.diskPoints_mono (fun _ _ meets => meets) part key
    rw [Model.diskPoints, found, Option.map_some, Option.getD_some, all] at grown
    have filled : series.points ≠ [] := by
      obtain ⟨copy, active⟩ := Option.ne_none_iff_exists'.mp copied
      obtain ⟨some, part⟩ := (history'.submitted key series found).1.copied copy active
      intro none
      rw [(List.append_eq_nil_iff.mp none).2, List.prefix_nil] at part
      exact some part
    cases present : modelOf store.initialTscBufSize retentionSeconds events key with
    | none =>
        rw [Model.diskPoints, present] at grown
        exact absurd (List.prefix_nil.mp grown) filled
    | some latest =>
        rw [Model.diskPoints, present, Option.map_some, Option.getD_some] at grown
        have reloaded : (modelOf store.initialTscBufSize retentionSeconds events).reload key = some latest.reload := by
          rw [Model.reload, present, Option.bind_some, if_neg]
          rintro ⟨none, absent⟩
          rw [Series.diskPoints, none, absent] at grown
          exact filled (List.prefix_nil.mp grown)
        exact ⟨latest.diskPoints, loaded.reads small' reloaded, grown⟩

/-- The points of one key are synced and survive a restart. The other key, which is written behind the sync, is lost. -/
theorem storageRun_durable_synced :
    ∃ events synced store written after,
      StorageRun 10 28 (fun events _ op => op.Durable events) (events ++ [⟨.sync, ⟨[], none⟩⟩]) synced ∧
      (StorageOp.write [98] [(4#64, 7#64)]).run synced = .ok written store ∧
      (∃ again, (StorageOp.restart fun _ _ => 0).run store = .ok again after) ∧
      (∀ points, Reads synced [97] points → ∃ kept, Reads after [97] kept ∧ points <+: kept) ∧
      storageGet [98] 1 after = .error (.code .lookupFailed) after := by
  have passed : (initAndRun 10 28 [.write [97] [(3#64, 7#64), (5#64, 7#64)], .sync, .write [98] [(4#64, 7#64)]]
      newStorage).passes (fun results store => results.tail.head? = some ⟨[], none⟩ ∧ ¬ OnDisk store [98]) = true := by
    decide +kernel
  obtain ⟨results, store, run, checked⟩ := EStateM.Result.of_passes passed
  obtain ⟨codes, lost⟩ := of_decide_eq_true checked
  obtain ⟨_, state0, opened, run⟩ := EStateM.of_bind_ok run
  obtain ⟨first, state1, write1, run⟩ := EStateM.of_bind_ok run
  obtain ⟨rest1, final1, run, done1⟩ := EStateM.of_bind_ok run
  cases done1
  obtain ⟨second, synced, sync, run⟩ := EStateM.of_bind_ok run
  obtain ⟨rest2, final2, run, done2⟩ := EStateM.of_bind_ok run
  cases done2
  obtain ⟨third, state3, write2, run⟩ := EStateM.of_bind_ok run
  obtain ⟨rest3, final3, run, done3⟩ := EStateM.of_bind_ok run
  cases done3
  cases run
  obtain rfl : second = ⟨[], none⟩ := Option.some.inj codes
  have early : (StorageOp.write [97] [(3#64, 7#64), (5#64, 7#64)]).Durable [] := ⟨⟨by decide, by decide⟩, by decide⟩
  have late : (StorageOp.write [98] [(4#64, 7#64)]).Durable
      [⟨.write [97] [(3#64, 7#64), (5#64, 7#64)], first⟩, ⟨.sync, ⟨[], none⟩⟩] := by
    refine ⟨⟨by decide, ?_⟩, by decide⟩
    change Increasing [(4#64, 7#64)]
    decide
  have start : StorageRun 10 28 (fun events _ op => op.Durable events) [] state0 := .init _ opened
  have before := (start.step _ early write1).step .sync trivial sync
  obtain ⟨written, after, restarted, _, absent, kept⟩ :=
    storageRun_durable (by decide) (by decide) (before.step _ late write2) fun _ _ => 0
  exact ⟨_, synced, _, third, after, before, write2, ⟨written, restarted⟩,
    fun points => kept [⟨_, first⟩] [] [⟨_, third⟩] synced [97] points rfl before, absent [98] 1 lost⟩

/-- A point that an earlier restart has lost does not come back with a later sync. -/
theorem storageRun_lostBeforeSync :
    ∃ first second synced store written after last,
      StorageRun 10 28 (fun events _ op => op.Durable events)
        [⟨.write [97] [(3#64, 7#64)], first⟩, ⟨.restart fun _ _ => 0, ⟨[], none⟩⟩,
          ⟨.write [97] [(5#64, 7#64)], second⟩, ⟨.sync, synced⟩] store ∧
      first.stored = [(3#64, 7#64)] ∧ synced.err = none ∧
      (StorageOp.restart fun _ _ => 0).run store = .ok written after ∧
      storageGet [97] 2 after = .ok [(5#64, 7#64)] last := by
  have passed : (initAndRun 10 28 [.write [97] [(3#64, 7#64)], .restart fun _ _ => 0,
      .write [97] [(5#64, 7#64)], .sync] newStorage).passes (fun results store =>
        results.map (·.stored) = [[(3#64, 7#64)], [], [(5#64, 7#64)], []] ∧
        results.map (·.err) = [none, none, none, none] ∧
        ((StorageOp.restart fun _ _ => 0).run store).passes fun _ after =>
          (storageGet [97] 2 after).passes fun points _ => points = [(5#64, 7#64)]) = true := by
    decide +kernel
  obtain ⟨results, store, run, checked⟩ := EStateM.Result.of_passes passed
  obtain ⟨stored, codes, restarted⟩ := of_decide_eq_true checked
  obtain ⟨written, after, restart, read⟩ := EStateM.Result.of_passes restarted
  obtain ⟨points, last, read, same⟩ := EStateM.Result.of_passes read
  rw [of_decide_eq_true same] at read
  obtain ⟨_, state0, opened, run⟩ := EStateM.of_bind_ok run
  obtain ⟨first, state1, write1, run⟩ := EStateM.of_bind_ok run
  obtain ⟨rest1, final1, run, done1⟩ := EStateM.of_bind_ok run
  cases done1
  obtain ⟨again, state2, reopen, run⟩ := EStateM.of_bind_ok run
  obtain ⟨rest2, final2, run, done2⟩ := EStateM.of_bind_ok run
  cases done2
  obtain ⟨second, state3, write2, run⟩ := EStateM.of_bind_ok run
  obtain ⟨rest3, final3, run, done3⟩ := EStateM.of_bind_ok run
  cases done3
  obtain ⟨synced, state4, sync, run⟩ := EStateM.of_bind_ok run
  obtain ⟨rest4, final4, run, done4⟩ := EStateM.of_bind_ok run
  cases done4
  cases run
  simp only [List.map_cons, List.map_nil, List.cons.injEq, and_true] at stored codes
  have nothing : again = ⟨[], none⟩ := by
    cases again
    rw [Written.mk.injEq]
    exact ⟨stored.2.1, codes.2.1⟩
  subst nothing
  have early : (StorageOp.write [97] [(3#64, 7#64)]).Durable [] := ⟨⟨by decide, by decide⟩, by decide⟩
  have late : (StorageOp.write [97] [(5#64, 7#64)]).Durable
      [⟨.write [97] [(3#64, 7#64)], first⟩, ⟨.restart fun _ _ => 0, ⟨[], none⟩⟩] := by
    refine ⟨⟨by decide, ?_⟩, by decide⟩
    change Increasing [(3#64, 7#64), (5#64, 7#64)]
    decide
  have start : StorageRun 10 28 (fun events _ op => op.Durable events) [] state0 := .init _ opened
  have reached := (((start.step _ early write1).step (.restart _) trivial reopen).step _ late write2).step .sync trivial
    sync
  exact ⟨first, second, synced, _, written, after, last, reached, stored.1, codes.2.2.2, restart, read⟩

end Menoetius
