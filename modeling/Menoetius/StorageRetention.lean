import Menoetius.StorageDurable

/-
This file shows when a clean keeps the points that are not old, and when a sync can copy every open block.
-/

namespace Menoetius

namespace Series

/-- The blocks before the last one that starts before a time have only older points. -/
theorem old_of_mem_take {t : Int} {point : Point} (blocks : List (List Point)) (filled : ∀ points ∈ blocks, points ≠ [])
    (increasing : Increasing blocks.flatten)
    (member : point ∈ (blocks.take (((blocks.filterMap fun points => points.head?.map fun point =>
      point.1.toInt).takeWhile fun start => decide (start < t)).length - 1)).flatten) : point.1.toInt < t := by
  induction blocks with
  | nil =>
      rw [List.take_nil] at member
      cases member
  | cons points rest ih =>
      obtain ⟨first, more, rfl⟩ := List.exists_cons_of_ne_nil (filled points List.mem_cons_self)
      obtain ⟨_, later, across⟩ := List.pairwise_append.mp increasing
      rw [List.filterMap_cons, List.head?_cons, Option.map_some] at member
      by_cases early : first.1.toInt < t
      · rw [List.takeWhile_cons_of_pos (by simpa using early), List.length_cons, Nat.add_sub_cancel] at member
        cases rest with
        | nil =>
            rw [List.filterMap_nil, List.takeWhile_nil, List.length_nil, List.take_zero] at member
            cases member
        | cons second others =>
            obtain ⟨next, tail, rfl⟩ := List.exists_cons_of_ne_nil (filled second (by simp))
            have ih := ih (fun points inside => filled points (List.mem_cons_of_mem _ inside)) later
            rw [List.filterMap_cons, List.head?_cons, Option.map_some] at member ih
            by_cases soon : next.1.toInt < t
            · rw [List.takeWhile_cons_of_pos (by simpa using soon), List.length_cons] at member ih
              rw [List.take_succ_cons, List.flatten_cons, List.mem_append] at member
              rcases member with here | after
              · exact (across point here next (by simp)).trans soon
              · exact ih after
            · rw [List.takeWhile_cons_of_neg (by simpa using soon), List.length_nil, List.take_zero] at member
              cases member
      · rw [List.takeWhile_cons_of_neg (by simpa using early), List.length_nil, List.take_zero] at member
        cases member

/-- A trim keeps the points that are not old. -/
theorem Sound.mem_trim {series : Series} {t : Int} {point : Point} (sound : series.Sound)
    (increasing : Increasing series.points) (member : point ∈ series.points) (young : t ≤ point.1.toInt) :
    point ∈ (series.trim t).points := by
  have blocks := series.flatten_blocks
  have filled : ∀ points ∈ series.complete ++ series.active.toList, points ≠ [] := by
    intro points inside
    rcases List.mem_append.mp inside with complete | copy
    · exact sound.filled points complete
    · exact (sound.copied points (Option.mem_toList.mp copy)).1
  have older : point ∈ ((series.complete ++ series.active.toList).take
      ((series.startTimes.takeWhile fun start => decide (start < t)).length - 1)).flatten → point.1.toInt < t := by
    refine old_of_mem_take _ filled ?_
    rw [blocks]
    exact increasing.sublist sound.diskPoints_start.sublist
  rw [Series.trim]
  generalize ((series.startTimes.takeWhile fun start => decide (start < t)).length - 1) = count at older ⊢
  rw [points, List.mem_append] at member ⊢
  rcases member with complete | stream
  · rw [← List.take_append_drop count series.complete, List.flatten_append, List.mem_append] at complete
    rcases complete with dropped | kept
    · exfalso
      have old : point.1.toInt < t := by
        apply older
        rw [List.take_append, List.flatten_append]
        exact List.mem_append_left _ dropped
      omega
    · exact Or.inl kept
  · exact Or.inr stream

/-- The last point in memory is the newest one. -/
theorem lastTime_newest {series : Series} {point : Point} (increasing : Increasing series.points)
    (some : series.stream ≠ []) (member : point ∈ series.points) : point.1.toInt ≤ series.lastTime := by
  rcases List.eq_nil_or_concat series.stream with none | ⟨front, last, stream⟩
  · exact absurd none some
  · rw [List.concat_eq_append] at stream
    have value : series.lastTime = last.1.toInt := by
      rw [lastTime, stream, List.getLast?_concat]
      rfl
    have split : series.points = (series.complete.flatten ++ front) ++ [last] := by
      rw [points, stream, List.append_assoc]
    rw [value]
    rw [split] at increasing member
    rcases List.mem_append.mp member with before | same
    · exact le_of_lt ((List.pairwise_append.mp increasing).2.2 point before last List.mem_cons_self)
    · rw [List.mem_singleton.mp same]

end Series

/-- The blocks in use of the item of a key fit the buffer of `storage_get`. -/
def FitsBuffer (key : List UInt8) (content : Nat → Option Block) (item : StorageItem) : Prop :=
  item.key = some key → ∀ offset block, content offset = some block → block.Live →
    carriedId block = item.internalId → getPoolSize block.pool ≤ storageGetBufN

theorem FitsBuffer.frame {key : List UInt8} {other : Nat} {content later : Nat → Option Block} {item : StorageItem}
    (fits : FitsBuffer key content item) (different : item.internalId ≠ other)
    (frame : Frame other content later) : FitsBuffer key later item := by
  intro named offset block found live carried
  refine fits named offset block (frame.old offset block found live ?_) live carried
  rw [carried]
  exact different

theorem fitsLaw (s : Nat) (t : Int) (model : Model) (key : List UInt8) :
    CleanLaw s t (fun content item => Keeps s model content item ∧ FitsBuffer key content item)
      (fun content item => Keeps s (model.clean t) content item ∧ FitsBuffer key content item) where
  owns := fun zero holds => (keepsLaw s t model).owns zero holds.1
  frame := fun holds different frame =>
    ⟨(keepsLaw s t model).frame holds.1 different frame, holds.2.frame different frame⟩
  frameDone := fun holds different frame =>
    ⟨(keepsLaw s t model).frameDone holds.1 different frame, holds.2.frame different frame⟩
  trim := by
    rintro content later item zero ⟨kept, fits⟩ alive released
    refine ⟨(keepsLaw s t model).trim zero kept alive released, ?_⟩
    intro named offset block found live carried
    exact fits named offset block (released.live found live).2 live carried

section
variable {s : Nat} {content : Nat → Option Block} {item : StorageItem} {series : Series} {key : List UInt8}

/-- The entries of an item can be read when its blocks fit the buffer. -/
theorem ItemHolds.readable_iff (holds : ItemHolds s content item series) (zero : content 0 = none)
    (named : item.key = some key) :
    (∀ entry ∈ item.dataOffsets, Readable content entry) ↔ FitsBuffer key content item := by
  constructor
  · intro readable _ offset block found live carried
    obtain ⟨entry, member, same⟩ := List.mem_map.mp (holds.owned offset block found live carried)
    exact readable entry member block (by rw [same]; exact found)
  · intro fits entry member block found
    have nonzero : entry.offset ≠ 0 := by
      intro none
      rw [none, zero] at found
      cases found
    have inside : entry ∈ item.onDisk := List.mem_filter.mpr ⟨member, by simpa using nonzero⟩
    obtain ⟨again, there, live, carried, _⟩ := (holds.mem_onDisk zero entry).mp inside
    rw [found] at there
    rw [← Option.some.inj there] at live carried
    exact fits named entry.offset block found live carried

end

/-- A point that can be read and is not old can still be read after a clean, at every time. -/
def Retains (store : Storage) : Prop :=
  ∀ now key maxNumPts points last, storageGet key maxNumPts store = .ok points last →
    ∀ point ∈ points, now - store.retentionSeconds ≤ point.1.toInt →
      ∃ cleaned kept final, cleanItems now store = .ok () cleaned ∧
        storageGet key maxNumPts cleaned = .ok kept final ∧ point ∈ kept

/-- No item without a point in memory has a block on disk. -/
def MemoryAhead (store : Storage) : Prop :=
  ∀ item ∈ store.items, item.data.data.numPts = 0 → ∀ entry ∈ item.dataOffsets, entry.offset = 0

section
variable {store : Storage} {keyBlocks dataBlocks : List Block} {model : Model}

/-- The timeseries that are not in memory have no points. -/
theorem StorageModels.memory_of_ahead (models : StorageModels store keyBlocks dataBlocks model)
    (ahead : MemoryAhead store) {key : List UInt8} {series : Series} (found : model key = some series)
    (none : series.stream = []) : series.points = [] := by
  obtain ⟨item, member, named, holds⟩ := models.find found
  by_cases nothing : series.complete = [] ∧ series.active = Option.none
  · rw [Series.points, nothing.1, none]
    rfl
  · obtain ⟨entry, inside⟩ := holds.exists_onDisk (blockAt_zero dataBlocks) nothing
    obtain ⟨present, nonzero⟩ := List.mem_filter.mp inside
    have count : item.data.data.numPts = 0 := by
      rw [holds.stream.numPts, none]
      rfl
    exact absurd (ahead item member count entry present) (by simpa using nonzero)

/-- A clean keeps the points that are not old while the memory is ahead of the disk. -/
theorem StorageModels.retains (models : StorageModels store keyBlocks dataBlocks model)
    (increasing : ∀ key series, model key = some series → series.Sound ∧ Increasing series.points)
    (ahead : MemoryAhead store) : Retains store := by
  intro now key maxNumPts points last read point member young
  cases found : model key with
  | none =>
      rw [storageGet_absent models found] at read
      cases read
  | some series =>
      obtain ⟨sound, sorted⟩ := increasing key series found
      obtain ⟨item, present, named, holds⟩ := models.find found
      obtain ⟨rfl, few, readable, _⟩ := (storageGet_ends models.toStorageHolds present named holds maxNumPts).of_ok read
      have fits := (holds.readable_iff (blockAt_zero dataBlocks) named).mp readable
      have stream : series.stream ≠ [] := by
        intro none
        rw [models.memory_of_ahead ahead found none] at member
        cases member
      have alive : ¬ series.lastTime < now - store.retentionSeconds := by
        have newest := Series.lastTime_newest sorted stream member
        omega
      have trimmed : model.clean (now - store.retentionSeconds) key =
          some (series.trim (now - store.retentionSeconds)) := by
        rw [Model.clean, found, Option.bind_some, if_neg alive]
      obtain ⟨cleaned, names, later, run, same, kept, known⟩ := models.cleanWith now (fitsLaw _ _ model key) (by
        intro other inside named'
        obtain rfl := eq_of_nodup_map models.keysDistinct inside present (named'.trans named.symm)
        exact fits named')
      obtain ⟨stays, inside, named', holds'⟩ := kept.find trimmed
      have readable' := (holds'.readable_iff (blockAt_zero later) named').mpr (known stays inside)
      have shorter : (series.trim (now - store.retentionSeconds)).points.length ≤ series.points.length :=
        ((List.drop_sublist _ _).flatten.append_right _).length_le
      obtain ⟨result, final, read', rfl, _⟩ :=
        (storageGet_ends kept.toStorageHolds inside named' holds' maxNumPts).returns (by
          rintro failure _ (⟨_, many⟩ | ⟨_, entry, listed, unread⟩)
          · omega
          · exact unread (readable' entry listed))
      exact ⟨cleaned, _, final, run, read', sound.mem_trim sorted member young⟩

/-- A clean that keeps the points that are not old finds the memory ahead of the disk. -/
theorem StorageModels.memoryAhead (models : StorageModels store keyBlocks dataBlocks model)
    (sound : ∀ key series, model key = some series → series.Sound) (small : store.initialTscBufSize + 38 ≤ 2 ^ 20)
    (retains : Retains store) : MemoryAhead store := by
  intro item member count entry present
  by_contra nonzero
  obtain ⟨key, series, named, found, holds⟩ := models.items item member
  have empty : series.stream = [] := by
    rw [holds.stream.numPts] at count
    exact List.length_eq_zero_iff.mp count
  have absent : series.active = none := by
    rw [← Option.not_isSome_iff_eq_none, Option.isSome_iff_exists]
    rintro ⟨copy, active⟩
    obtain ⟨some, part⟩ := (sound key series found).copied copy active
    rw [empty, List.prefix_nil] at part
    exact some part
  obtain ⟨_, found', some⟩ := models.onDisk_iff.mp ⟨item, member, named, entry, present, nonzero⟩
  rw [found] at found'
  obtain rfl := Option.some.inj found'
  have complete : series.complete ≠ [] := fun none => some ⟨none, absent⟩
  obtain ⟨points, rest, blocks⟩ := List.exists_cons_of_ne_nil complete
  obtain ⟨point, more, filled⟩ := List.exists_cons_of_ne_nil
    ((sound key series found).filled points (by rw [blocks]; exact List.mem_cons_self))
  have inside : point ∈ series.points := by
    rw [Series.points, blocks, filled]
    simp
  have positive := holds.positive point inside
  obtain ⟨pos, read⟩ := storageGet_run models small found _ le_rfl
  -- One second after the retention time no point is old, but the item looks as if its last point was at time 0.
  obtain ⟨cleaned, kept, final, run, read', _⟩ :=
    retains (store.retentionSeconds + 1) key _ _ _ read point inside (by omega)
  obtain ⟨after, names, later, run', _, gone⟩ := models.clean (store.retentionSeconds + 1)
  rw [run] at run'
  cases run'
  have old : series.lastTime < store.retentionSeconds + 1 - store.retentionSeconds := by
    rw [Series.lastTime, empty]
    simp
  rw [storageGet_absent gone (by rw [Model.clean, found, Option.bind_some, if_pos old])] at read'
  cases read'

end

/-- In every storage that is reached with points in the order of time, a clean keeps the points that are not old if
the memory is ahead of the disk, and only if it is when `storage_get` can read all blocks. -/
theorem storageRun_retains {s : Nat} {retentionSeconds : Int} {events : List Event} {store : Storage} (large : 4 < s)
    (run : StorageRun retentionSeconds s (fun events _ op => op.SubmitsNewer events) events store) :
    (MemoryAhead store → Retains store) ∧ (s + 38 ≤ 2 ^ 20 → (Retains store ↔ MemoryAhead store)) := by
  obtain ⟨size, _, history, names, later, models⟩ := run.models large (fun _ _ meets => meets.valid)
    fun _ _ history _ => history.ordered fun _ _ meets => meets
  subst size
  have enough : MemoryAhead store → Retains store := by
    refine models.retains fun key series found => ?_
    obtain ⟨sound, part⟩ := history.submitted key series found
    exact ⟨sound, (history.submittedIncreasing (fun _ _ meets => meets) key).sublist part⟩
  refine ⟨enough, fun small => ⟨fun retains => ?_, enough⟩⟩
  exact models.memoryAhead (fun key series found => (history.submitted key series found).1) small retains

/-- One point is in a complete block and one in memory. -/
theorem storageRun_retains_written :
    ∃ events store, StorageRun 10 28 (fun events _ op => op.SubmitsNewer events) events store ∧
      store.items.length = 1 ∧ Retains store := by
  have passed : (initAndRun 10 28 [.write [97] [(3#64, 7#64), (5#64, 7#64)]] newStorage).passes
      (fun _ store => store.items.length = 1 ∧
        store.items.all fun item => decide (item.data.data.numPts = 1)) = true := by
    decide +kernel
  obtain ⟨results, store, run, checked⟩ := EStateM.Result.of_passes passed
  obtain ⟨one, points⟩ := of_decide_eq_true checked
  obtain ⟨_, first, opened, run⟩ := EStateM.of_bind_ok run
  obtain ⟨wrote, last, write, run⟩ := EStateM.of_bind_ok run
  obtain rfl : last = store := by
    cases run
    rfl
  have meets : (StorageOp.write [97] [(3#64, 7#64), (5#64, 7#64)]).SubmitsNewer [] := ⟨by decide, by decide⟩
  have start : StorageRun 10 28 (fun events _ op => op.SubmitsNewer events) [] first := .init _ opened
  have reached := start.step _ meets write
  refine ⟨_, last, reached, one, (storageRun_retains (by decide) reached).1 ?_⟩
  intro item member none
  rw [List.all_eq_true] at points
  rw [of_decide_eq_true (points item member)] at none
  cases none

/-- After a restart that finds only a complete block, a clean deletes the key with points that are not old. -/
theorem storageRun_eaten :
    ∃ events store last cleaned, StorageRun 10 28 (fun events _ op => op.SubmitsNewer events) events store ∧
      storageGet [97] 2 store = .ok [(3#64, 7#64)] last ∧ cleanItems 11 store = .ok () cleaned ∧
      storageGet [97] 2 cleaned = .error (.code .lookupFailed) cleaned := by
  have passed : (initAndRun 10 28 [.write [97] [(3#64, 7#64), (5#64, 7#64)], .restart fun _ _ => 0] newStorage).passes
      (fun _ store => (storageGet [97] 2 store).passes (fun points _ => points = [(3#64, 7#64)]) ∧
        (cleanItems 11 store).passes fun _ cleaned => cleaned.items = []) = true := by
    decide +kernel
  obtain ⟨results, store, run, checked⟩ := EStateM.Result.of_passes passed
  obtain ⟨read, clean⟩ := of_decide_eq_true checked
  obtain ⟨points, last, read, same⟩ := EStateM.Result.of_passes read
  rw [of_decide_eq_true same] at read
  obtain ⟨_, cleaned, clean, none⟩ := EStateM.Result.of_passes clean
  obtain ⟨_, first, opened, run⟩ := EStateM.of_bind_ok run
  obtain ⟨wrote, second, write, run⟩ := EStateM.of_bind_ok run
  obtain ⟨rest, final, run, done⟩ := EStateM.of_bind_ok run
  cases done
  obtain ⟨again, third, restart, run⟩ := EStateM.of_bind_ok run
  cases run
  have meets : (StorageOp.write [97] [(3#64, 7#64), (5#64, 7#64)]).SubmitsNewer [] := ⟨by decide, by decide⟩
  have start : StorageRun 10 28 (fun events _ op => op.SubmitsNewer events) [] first := .init _ opened
  have reached := (start.step _ meets write).step (.restart _) trivial restart
  refine ⟨_, _, last, cleaned, reached, read, clean, storageGet_missing ?_ 2⟩
  intro item member
  rw [of_decide_eq_true none] at member
  cases member

/-- A write or a sync, or a restart of a storage in which every item with a block on disk has a copy of its open
block there. -/
def StorageOp.KeepsMemory (events : List Event) (store : Storage) : StorageOp → Prop
  | .write key points => (StorageOp.write key points).SubmitsNewer events
  | .sync => True
  | .clean _ => False
  | .restart _ => ∀ item ∈ store.items, (∃ entry ∈ item.dataOffsets, entry.offset ≠ 0) →
      ∀ last, item.dataOffsets.getLast? = some last → last.offset ≠ 0

/-- The same condition on the timeseries. -/
def StorageOp.ReloadsMemory (model : Model) (events : List Event) : StorageOp → Prop
  | .write key points => (StorageOp.write key points).SubmitsNewer events
  | .sync => True
  | .clean _ => False
  | .restart _ => ∀ key series, model key = some series → series.complete ≠ [] → series.active ≠ none

theorem StorageOp.ReloadsMemory.newer {model : Model} {events : List Event} {op : StorageOp}
    (meets : op.ReloadsMemory model events) : op.SubmitsNewer events := by
  cases op with
  | write key points => exact meets
  | _ => exact trivial

theorem StorageModels.reloadsMemory {store : Storage} {keyBlocks dataBlocks : List Block} {model : Model}
    {events : List Event} {op : StorageOp} (models : StorageModels store keyBlocks dataBlocks model)
    (keeps : op.KeepsMemory events store) : op.ReloadsMemory model events := by
  cases op with
  | restart memory =>
      intro key series found complete absent
      obtain ⟨item, member, named, holds⟩ := models.find found
      obtain ⟨entry, inside⟩ := holds.exists_onDisk (blockAt_zero dataBlocks) fun nothing => complete nothing.1
      obtain ⟨present, nonzero⟩ := List.mem_filter.mp inside
      have copied := keeps item member ⟨entry, present, by simpa using nonzero⟩
      obtain ⟨front, last, split, entries, open_⟩ := holds.entries
      cases open_ with
      | unused first none => exact complete first
      | unwritten startTime none =>
          rw [split, List.getLast?_concat] at copied
          exact copied _ rfl rfl
      | written entry points block found data copy start part =>
          rw [absent] at copy
          cases copy
  | _ => exact keeps

/-- Every key has a point in memory. -/
theorem History.streams {s : Nat} {retentionSeconds : Int} {events : List Event} (large : 28 ≤ s)
    (history : History s retentionSeconds
      (fun events op => op.ReloadsMemory (modelOf s retentionSeconds events) events) events) :
    ∀ key series, modelOf s retentionSeconds events key = some series → series.stream ≠ [] := by
  induction history with
  | nil =>
      intro key series found
      cases found
  | @step events earlier event allowed explained ih =>
      intro key series found
      rw [modelOf_concat] at found
      obtain ⟨op, written⟩ := event
      cases op with
      | write name points =>
          have run : WriteRun s ((modelOf s retentionSeconds events).seriesOf name) points written := explained
          have newer : (StorageOp.write name points).SubmitsNewer events := allowed
          by_cases here : key = name
          · subst here
            have value : some (((modelOf s retentionSeconds events).seriesOf key).addAll s written.stored) =
                some series := (Model.write_self s _ key written.stored).symm.trans found
            rw [← Option.some.inj value]
            apply Series.stream_addAll
            rw [Model.seriesOf] at run ⊢
            cases before : modelOf s retentionSeconds events key with
            | some old => exact Or.inl (ih key old before)
            | none =>
                rw [before] at run
                exact Or.inr (run.first_stored large rfl newer.1.2)
          · exact ih key series ((Model.write_of_ne s _ written.stored here).symm.trans found)
      | sync =>
          unfold Model.after at found
          dsimp only at found
          split at found
          · obtain ⟨old, before, rfl⟩ := Option.map_eq_some_iff.mp found
            exact ih key old before
          · exact ih key series found
      | clean now => exact allowed.elim
      | restart memory =>
          obtain ⟨old, before, kept⟩ := Option.bind_eq_some_iff.mp found
          split at kept
          · cases kept
          · rename_i something
            have copied : old.active ≠ none := by
              intro none
              have complete : old.complete ≠ [] := fun nothing => something ⟨nothing, none⟩
              exact allowed key old before complete none
            obtain ⟨copy, active⟩ := Option.ne_none_iff_exists'.mp copied
            rw [← Option.some.inj kept, Series.reload, active]
            exact ((earlier.submitted key old before).1.copied copy active).1

/-- Every item has a point in memory. -/
def InMemory (store : Storage) : Prop := ∀ item ∈ store.items, item.data.data.numPts ≠ 0

section
variable {store : Storage} {keyBlocks dataBlocks : List Block} {model : Model}

theorem StorageModels.inMemory_iff (models : StorageModels store keyBlocks dataBlocks model) :
    InMemory store ↔ ∀ key series, model key = some series → series.stream ≠ [] := by
  constructor
  · intro all key series found none
    obtain ⟨item, member, _, holds⟩ := models.find found
    exact all item member (by rw [holds.stream.numPts, none, List.length_nil])
  · intro streams item member count
    obtain ⟨key, series, _, found, holds⟩ := models.items item member
    rw [holds.stream.numPts] at count
    exact streams key series found (List.length_eq_zero_iff.mp count)

/-- A sync of items that all have a point in memory returns, unless the file is full. -/
theorem StorageModels.syncs (models : StorageModels store keyBlocks dataBlocks model)
    (small : store.initialTscBufSize + 38 ≤ 2 ^ 26) (all : InMemory store) :
    storageSync.Ends store (fun _ _ => True) fun failure _ => DiskFull failure := by
  apply (storageSync_ends models).mono (fun _ _ _ => trivial)
  intro failure after failed
  cases failure with
  | code err =>
      obtain ⟨_, big, _⟩ := failed
      omega
  | abort site =>
      rcases failed with ⟨_, key, series, found, none⟩ | full
      · exact absurd none (models.inMemory_iff.mp all key series found)
      · exact full

end

/-- In every storage that is reached with points in the order of time, a sync returns only if all items have a point in
memory, and then it does unless the file is full. -/
theorem storageRun_syncs_iff {s : Nat} {retentionSeconds : Int} {events : List Event} {store : Storage} (large : 4 < s)
    (small : s + 38 ≤ 2 ^ 26)
    (run : StorageRun retentionSeconds s (fun events _ op => op.SubmitsNewer events) events store) :
    (InMemory store → storageSync.Ends store (fun _ _ => True) fun failure _ => DiskFull failure) ∧
      ∀ value after, storageSync store = .ok value after → InMemory store := by
  obtain ⟨size, _, _, _, _, models⟩ := run.models large (fun _ _ meets => meets.valid)
    fun _ _ history _ => history.ordered fun _ _ meets => meets
  subst size
  exact ⟨models.syncs small, fun value after synced =>
    models.inMemory_iff.mpr ((storageSync_ends models).of_ok synced).2.1⟩

/-- A sync copies every open block when no restart has found a key with complete blocks only. -/
theorem storageRun_syncs {s : Nat} {retentionSeconds : Int} {events : List Event} {store : Storage}
    (large : 28 ≤ s) (small : s + 38 ≤ 2 ^ 26)
    (run : StorageRun retentionSeconds s (fun events store op => op.KeepsMemory events store) events store) :
    storageSync.Ends store (fun _ _ => True) fun failure _ => DiskFull failure := by
  obtain ⟨size, _, history, names, later, models⟩ := @StorageRun.models_of s retentionSeconds
    (fun events op => op.ReloadsMemory (modelOf s retentionSeconds events) events) events store _ (by omega)
    (fun _ _ meets => meets.newer.valid) (fun _ _ history _ => history.ordered fun _ _ meets => meets.newer)
    (fun _ _ _ _ _ _ models keeps => models.reloadsMemory keeps) run
  subst size
  exact models.syncs small (models.inMemory_iff.mpr (history.streams large))

/-- A sync, a restart and another sync. -/
theorem storageRun_syncs_restarted :
    ∃ events store, StorageRun 10 28 (fun events store op => op.KeepsMemory events store) events store ∧
      (∃ memory, (⟨.restart memory, ⟨[], none⟩⟩ : Event) ∈ events) ∧
      storageSync.Ends store (fun _ _ => True) fun failure _ => DiskFull failure := by
  have passed : (initAndRun 10 28 [.write [97] [(3#64, 7#64), (5#64, 7#64)], .sync] newStorage).passes
      (fun _ store => (store.items.all fun item => item.dataOffsets.all fun entry => decide (entry.offset ≠ 0)) ∧
        ((StorageOp.restart fun _ _ => 0).run store).passes fun written _ => written.stored = [] ∧ written.err = none) =
          true := by
    decide +kernel
  obtain ⟨results, store, run, checked⟩ := EStateM.Result.of_passes passed
  obtain ⟨offsets, restarted⟩ := of_decide_eq_true checked
  obtain ⟨⟨stored, err⟩, after, restart, nothing⟩ := EStateM.Result.of_passes restarted
  obtain ⟨rfl, rfl⟩ := of_decide_eq_true nothing
  obtain ⟨_, first, opened, run⟩ := EStateM.of_bind_ok run
  obtain ⟨wrote, second, write, run⟩ := EStateM.of_bind_ok run
  obtain ⟨rest, final, run, done⟩ := EStateM.of_bind_ok run
  cases done
  obtain ⟨synced, third, sync, run⟩ := EStateM.of_bind_ok run
  cases run
  have meets : (StorageOp.write [97] [(3#64, 7#64), (5#64, 7#64)]).SubmitsNewer [] := ⟨by decide, by decide⟩
  have start : StorageRun 10 28 (fun events store op => op.KeepsMemory events store) [] first := .init _ opened
  have middle := (start.step (.write _ _) meets write).step .sync trivial sync
  have reached := middle.step (.restart fun _ _ => 0) (by
    intro item member _ last ends
    rw [List.all_eq_true] at offsets
    have all := offsets item member
    rw [List.all_eq_true] at all
    exact of_decide_eq_true (all last (List.mem_of_getLast? ends))) restart
  exact ⟨_, after, reached, ⟨_, List.mem_append_right _ List.mem_cons_self⟩,
    storageRun_syncs (by decide) (by decide) reached⟩

/-- After a restart that finds only a complete block, the next sync stops. -/
theorem storageSync_emptyStream :
    ∃ events store after, StorageRun 10 28 (fun events _ op => op.SubmitsNewer events ∧ ∀ now, op ≠ .clean now) events
        store ∧ storageSync store = .error (.abort .storageWriteDiskPoints) after := by
  have passed : (initAndRun 10 28 [.write [97] [(3#64, 7#64), (5#64, 7#64)], .restart fun _ _ => 0] newStorage).passes
      (fun _ store => (storageSync store).failsWith (.abort .storageWriteDiskPoints)) = true := by
    decide +kernel
  obtain ⟨results, store, run, stops⟩ := EStateM.Result.of_passes passed
  obtain ⟨after, stopped⟩ := EStateM.Result.of_failsWith stops
  obtain ⟨_, first, opened, run⟩ := EStateM.of_bind_ok run
  obtain ⟨wrote, second, write, run⟩ := EStateM.of_bind_ok run
  obtain ⟨rest, final, run, done⟩ := EStateM.of_bind_ok run
  cases done
  obtain ⟨again, third, restart, run⟩ := EStateM.of_bind_ok run
  cases run
  have meets : (StorageOp.write [97] [(3#64, 7#64), (5#64, 7#64)]).SubmitsNewer [] := ⟨by decide, by decide⟩
  have start : StorageRun 10 28 (fun events _ op => op.SubmitsNewer events ∧ ∀ now, op ≠ .clean now) [] first :=
    .init _ opened
  have reached := (start.step (.write _ _) ⟨meets, by simp⟩ write).step (.restart _) ⟨trivial, by simp⟩ restart
  exact ⟨_, _, after, reached, stopped⟩

end Menoetius
