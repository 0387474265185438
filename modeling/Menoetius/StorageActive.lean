import Menoetius.StorageRun

/-
This file follows the open block of every item through cleans and restarts.
-/

namespace Menoetius
open LittleEndian

/-- The last timestamp of the stream, as `storage_trim_and_write_to_disk` reads it. -/
theorem BlockHolds.lastTime {p : TscHeader} {series : Series} (holds : BlockHolds p series.stream) :
    p.lastTimestamp.toInt = series.lastTime := by
  rw [holds.lastTimestamp, Series.lastTime]
  cases List.eq_nil_or_concat series.stream with
  | inl none =>
      rw [none]
      rfl
  | inr some =>
      obtain ⟨front, last, split⟩ := some
      rw [split, List.concat_eq_append, coderOf_concat, List.getLast?_concat]
      rfl

/-- The time of a data offset. -/
def OffsetAndTime.time (entry : OffsetAndTime) : Int := entry.startTime.toInt

theorem oldEntries_length (t : Int) (entries : List OffsetAndTime) (nonzero : ∀ entry ∈ entries, entry.offset ≠ 0) :
    (oldEntries t entries).length =
      ((entries.map OffsetAndTime.time).takeWhile fun start => decide (start < t)).length := by
  induction entries with
  | nil => rfl
  | cons entry rest ih =>
      obtain ⟨first, others⟩ := List.forall_mem_cons.mp nonzero
      rw [List.map_cons, oldEntries]
      by_cases old : entry.startTime.toInt < t
      · rw [List.takeWhile_cons_of_pos (by simpa using ⟨first, old⟩),
          List.takeWhile_cons_of_pos (by exact decide_eq_true old), List.length_cons, List.length_cons, ← ih others]
        rfl
      · rw [List.takeWhile_cons_of_neg (by simpa [first] using old),
          List.takeWhile_cons_of_neg (by exact fun less => old (of_decide_eq_true less))]
        rfl

theorem oldEntries_zero (t : Int) (entries : List OffsetAndTime) (startTime : Word) :
    oldEntries t (entries ++ [⟨0, startTime⟩]) = oldEntries t entries := by
  induction entries with
  | nil => simp [oldEntries]
  | cons entry rest ih =>
      unfold oldEntries at *
      rw [List.cons_append, List.takeWhile_cons, List.takeWhile_cons, ih]

section
variable {s : Nat} {content later : Nat → Option Block} {item : StorageItem} {series : Series} {t : Int}

theorem entries_times {internalId : Nat} {front : List OffsetAndTime} {complete : List (List Point)}
    (entries : List.Forall₂ (EntryHolds s content internalId) front complete) :
    front.map OffsetAndTime.time = complete.filterMap fun points => points.head?.map fun point => point.1.toInt := by
  induction entries with
  | nil => rfl
  | @cons entry points front complete first rest ih =>
      obtain ⟨point, head, same⟩ := Option.map_eq_some_iff.mp first.start
      rw [List.map_cons, List.filterMap_cons, head, ih, OffsetAndTime.time, ← same]
      rfl

theorem entries_nonzero {internalId : Nat} {front : List OffsetAndTime} {complete : List (List Point)}
    (entries : List.Forall₂ (EntryHolds s content internalId) front complete) (zero : content 0 = none) :
    ∀ entry ∈ front, entry.offset ≠ 0 := by
  intro entry member
  obtain ⟨_, _, held⟩ := entry_of_mem entries member
  exact held.nonzero zero

/-- The trim counts the blocks on disk by their start times. -/
theorem ItemHolds.oldEntries (holds : ItemHolds s content item series) (zero : content 0 = none) :
    (oldEntries t item.dataOffsets).length =
      (series.startTimes.takeWhile fun start => decide (start < t)).length := by
  obtain ⟨front, last, split, entries, open_⟩ := holds.entries
  have nonzero := entries_nonzero entries zero
  have times := entries_times entries
  rw [split, Series.startTimes, List.filterMap_append, ← times]
  cases open_ with
  | unused first none =>
      rw [none, List.append_nil, Option.toList_none, List.filterMap_nil, List.append_nil]
      exact oldEntries_length t front nonzero
  | unwritten startTime none =>
      rw [none, Option.toList_none, List.filterMap_nil, List.append_nil, oldEntries_zero]
      exact oldEntries_length t front nonzero
  | written entry points block found data copy start part =>
      obtain ⟨point, head, same⟩ := Option.map_eq_some_iff.mp start
      have both : ∀ other ∈ front ++ [entry], other.offset ≠ 0 := by
        intro other member
        rcases List.mem_append.mp member with inFront | inLast
        · exact nonzero other inFront
        · rw [List.mem_singleton.mp inLast]
          intro none
          rw [none, zero] at found
          cases found
      rw [oldEntries_length t _ both, List.map_append, copy, Option.toList_some, List.filterMap_cons, head]
      rw [List.map_singleton, OffsetAndTime.time, ← same]
      rfl

/-- Entries whose blocks have not changed. -/
theorem entries_moved {internalId : Nat} {front : List OffsetAndTime} {complete : List (List Point)}
    (entries : List.Forall₂ (EntryHolds s content internalId) front complete)
    (kept : ∀ entry ∈ front, later entry.offset = content entry.offset) :
    List.Forall₂ (EntryHolds s later internalId) front complete := by
  induction entries with
  | nil => exact .nil
  | @cons entry points front complete first rest ih =>
      obtain ⟨same, others⟩ := List.forall_mem_cons.mp kept
      refine .cons ⟨?_, first.start⟩ (ih others)
      rw [same]
      exact first.block

/-- A trimmed item keeps the timeseries without its old blocks. -/
theorem ItemHolds.trimmed (holds : ItemHolds s content item series) (zero : content 0 = none)
    (released : BlocksReleased (item.trimPlaces t) content later) :
    ItemHolds s later (item.trimmed t) (series.trim t) := by
  have owns := (holds.owns zero).trimmed released
  have count : trimCount t item.dataOffsets =
      (series.startTimes.takeWhile fun start => decide (start < t)).length - 1 := by
    rw [trimCount, holds.oldEntries zero]
  obtain ⟨front, last, split, entries, open_⟩ := holds.entries
  have within : trimCount t item.dataOffsets ≤ front.length := by
    have fewer : (Menoetius.oldEntries t item.dataOffsets).length ≤ front.length + 1 := by
      have part : (Menoetius.oldEntries t item.dataOffsets).length ≤ item.dataOffsets.length :=
        (List.takeWhile_sublist _).length_le
      rw [split, List.length_append] at part
      have short : last.length ≤ 1 := by cases open_ <;> simp
      rw [split]
      omega
    unfold trimCount
    omega
  have kept : ∀ entry ∈ front.drop (trimCount t item.dataOffsets) ++ last, later entry.offset = content entry.offset := by
    intro entry member
    apply released.kept
    apply trimmed_disjoint holds.distinct
    rw [StorageItem.trimmed, split, List.drop_append_of_le_length (by rw [← split]; exact within), ← split]
    exact List.mem_map_of_mem member
  refine
    { small := holds.small
      stream := holds.stream
      dataLen := holds.dataLen
      entries := ⟨front.drop (trimCount t item.dataOffsets), last, ?_, ?_, ?_⟩
      distinct := owns.distinct
      owned := owns.owned
      positive := ?_ }
  · rw [StorageItem.trimmed, split, List.drop_append_of_le_length (by rw [← split]; exact within)]
  · rw [Series.trim, ← count]
    exact entries_moved (List.forall₂_drop _ entries) fun entry member => kept entry (List.mem_append_left _ member)
  · cases open_ with
    | unused first none => exact .unused (by rw [Series.trim, first, List.drop_nil]) none
    | unwritten startTime none => exact .unwritten startTime none
    | written entry points block found data copy start part =>
        refine .written entry points block ?_ data copy start part
        rw [kept entry (by simp), found]
  · intro point member
    apply holds.positive
    rcases List.mem_append.mp member with inComplete | inStream
    · obtain ⟨points, present, inside⟩ := List.mem_flatten.mp inComplete
      exact List.mem_append_left _ (List.mem_flatten.mpr ⟨points, List.mem_of_mem_drop present, inside⟩)
    · exact List.mem_append_right _ inStream

theorem OffsetAndTime.Before.asymm {first second : OffsetAndTime} (before : first.Before second) :
    ¬ second.Before first := by
  rintro (less | ⟨same, lower⟩)
  · rcases before with less' | ⟨same, _⟩ <;> omega
  · rcases before with less' | ⟨_, lower'⟩ <;> omega

/-- The blocks of every active block's item lie before it, by start time and then by place. -/
def NewestActive (content : Nat → Option Block) : Prop :=
  ∀ place block other offset, content place = some block → block.status = .active → content offset = some other →
    other.Live → carriedId other = carriedId block → offset ≠ place →
    OffsetAndTime.Before ⟨offset, blockStart other⟩ ⟨place, blockStart block⟩

/-- The timeseries after a restart: the open block continues its copy on disk. -/
def Series.reload (series : Series) : Series := { series with stream := series.active.getD [] }

theorem PointBlock.entryHolds {internalId : Nat} {points : List Point} {block : Block} {entry : OffsetAndTime}
    (data : PointBlock s internalId true points block) (found : content entry.offset = some block)
    (start : entry.startTime = blockStart block) : EntryHolds s content internalId entry points :=
  ⟨⟨block, found, data.toDataBlock⟩, by rw [start]; exact data.start.1⟩

theorem PointBlock.active {internalId : Nat} {points : List Point} {block : Block} {completeBlock : Bool}
    (data : PointBlock s internalId completeBlock points block) :
    completeBlock = false ↔ block.status = .active := by
  rw [data.status]
  cases completeBlock <;> simp

/-- The complete blocks that the loader has found, with their points. -/
theorem Collected.complete (collected : Collected s content item) (front : List OffsetAndTime)
    (part : ∀ entry ∈ front, entry ∈ item.dataOffsets)
    (valid : ∀ entry ∈ front, ∀ block, content entry.offset = some block → block.status ≠ .active) :
    ∃ complete, List.Forall₂ (EntryHolds s content item.internalId) front complete ∧
      ∀ points ∈ complete, ∀ point ∈ points, 0 < point.1.toInt := by
  induction front with
  | nil => exact ⟨[], .nil, by simp⟩
  | cons entry rest ih =>
      obtain ⟨inside, others⟩ := List.forall_mem_cons.mp part
      obtain ⟨first, later⟩ := List.forall_mem_cons.mp valid
      obtain ⟨complete, entries, positive⟩ := ih others later
      obtain ⟨block, completeBlock, points, found, data, start⟩ := collected.entries entry inside
      have whole : completeBlock = true := by
        cases completeBlock
        · exact absurd (data.active.mp rfl) (first block found)
        · rfl
      subst whole
      exact ⟨points :: complete, .cons (data.entryHolds found start) entries,
        List.forall_mem_cons.mpr ⟨data.positive, positive⟩⟩

/-- The last entry of an item is its active block, when it has one. -/
theorem Collected.last (collected : Collected s content item) (newest : NewestActive content) {place : Nat}
    {block : Block} (found : content place = some block) (active : block.status = .active)
    (carried : carriedId block = item.internalId) :
    ∃ front, item.dataOffsets = front ++ [⟨place, blockStart block⟩] ∧
      ∀ entry ∈ front, ∀ other, content entry.offset = some other → other.status ≠ .active := by
  have small := collected.small
  have before : ∀ entry ∈ item.dataOffsets, ∃ other, content entry.offset = some other ∧ other.Live ∧
      carriedId other = item.internalId ∧ entry.startTime = blockStart other := by
    intro entry member
    obtain ⟨other, _, _, there, data, start⟩ := collected.entries entry member
    exact ⟨other, there, data.live, data.carries (by omega), start⟩
  have member : (⟨place, blockStart block⟩ : OffsetAndTime) ∈ item.dataOffsets := by
    obtain ⟨entry, inside, same⟩ := List.mem_map.mp (collected.owned place block found (Or.inr active) carried)
    obtain ⟨other, there, _, _, start⟩ := before entry inside
    rw [same, found] at there
    rw [← Option.some.inj there] at start
    rw [← same, ← start]
    exact inside
  obtain ⟨front, rest, split⟩ := List.append_of_mem member
  have distinct := collected.distinct
  have sorted := collected.sorted
  rw [split, List.map_append, List.nodup_append, List.map_cons, List.nodup_cons] at distinct
  rw [split, List.pairwise_append, List.pairwise_cons] at sorted
  have last : rest = [] := by
    rw [List.eq_nil_iff_forall_not_mem]
    intro entry inside
    obtain ⟨other, there, live, id, start⟩ := before entry (by rw [split]; simp [inside])
    have elsewhere : entry.offset ≠ place := by
      intro same
      exact distinct.2.1.1 (List.mem_map.mpr ⟨entry, inside, same⟩)
    have earlier := newest place block other entry.offset found active there live (id.trans carried.symm) elsewhere
    rw [← start] at earlier
    exact (sorted.2.1.1 entry inside).asymm earlier
  subst last
  refine ⟨front, split, ?_⟩
  intro entry inside other there status
  obtain ⟨again, there', live, id, start⟩ := before entry (by rw [split]; simp [inside])
  rw [there] at there'
  obtain rfl := Option.some.inj there'
  have elsewhere : place ≠ entry.offset := by
    intro same
    exact distinct.2.2 entry.offset (List.mem_map_of_mem inside) place List.mem_cons_self same.symm
  have later := newest entry.offset other block place there status found (Or.inr active) (carried.trans id.symm)
    elsewhere
  rw [← start] at later
  exact (sorted.2.2 entry inside _ List.mem_cons_self).asymm later

/-- An item that was loaded keeps a timeseries, when its active block is the newest. -/
theorem Reloaded.holds (reloaded : Reloaded s content item) (newest : NewestActive content)
    (zero : content 0 = none) :
    ∃ series, ItemHolds s content item series ∧ series.stream = series.active.getD [] ∧
      (series.complete ≠ [] ∨ series.active ≠ none) ∧
      (item.dataOffsets.filter fun entry => entry.offset ≠ 0).Pairwise OffsetAndTime.Before := by
  have owns := reloaded.owns zero
  obtain ⟨old, collected, some, rfl⟩ := reloaded
  have nonzero : ∀ entry ∈ old.dataOffsets, entry.offset ≠ 0 := fun entry member => collected.nonzero zero member
  have all : old.dataOffsets.filter (fun entry => entry.offset ≠ 0) = old.dataOffsets := by
    rw [List.filter_eq_self]
    intro entry member
    simpa using nonzero entry member
  have small := collected.small
  rcases collected.stream with ⟨clear, valid⟩ | ⟨place, block, points, found, data, stream⟩
  · -- there are complete blocks only
    have loaded : old.loaded = { old with dataOffsets := old.dataOffsets ++ [unwritten] } := if_pos clear.numPts
    rw [loaded] at owns ⊢
    obtain ⟨complete, entries, positive⟩ := collected.complete old.dataOffsets (fun _ member => member) (by
      intro entry member block there active
      obtain ⟨other, _, _, there', data, _⟩ := collected.entries entry member
      rw [there] at there'
      obtain rfl := Option.some.inj there'
      have status := valid _ _ there data.live (data.carries (by omega))
      rw [active] at status
      cases status)
    refine ⟨⟨complete, none, []⟩, ?_, rfl, Or.inl ?_, ?_⟩
    · exact
        { small := owns.small
          stream := clear
          dataLen := owns.dataLen
          entries := ⟨old.dataOffsets, [unwritten], rfl, entries, .unwritten 0#64 rfl⟩
          distinct := owns.distinct
          owned := owns.owned
          positive := by
            intro point member
            rw [Series.points, List.append_nil] at member
            obtain ⟨points, present, inside⟩ := List.mem_flatten.mp member
            exact positive points present point inside }
    · intro none
      rw [show complete = [] from none, List.forall₂_nil_right_iff] at entries
      exact some entries
    · change ((old.dataOffsets ++ [unwritten]).filter fun entry => entry.offset ≠ 0).Pairwise _
      rw [List.filter_append, all, List.filter_cons_of_neg (by simp [unwritten]), List.filter_nil, List.append_nil]
      exact collected.sorted
  · have count : old.data.data.numPts ≠ 0 := by
      rw [stream.numPts]
      exact (List.length_pos_of_ne_nil data.nonempty).ne'
    have loaded : old.loaded = old := if_neg count
    rw [loaded] at owns ⊢
    have active : block.status = .active := data.active.mp rfl
    obtain ⟨front, split, others⟩ := collected.last newest found active (data.carries (by omega))
    obtain ⟨complete, entries, positive⟩ := collected.complete front
      (fun entry member => by rw [split]; exact List.mem_append_left _ member) others
    refine ⟨⟨complete, Option.some points, points⟩, ?_, rfl, Or.inr (by simp), ?_⟩
    · exact
        { small := owns.small
          stream := stream
          dataLen := owns.dataLen
          entries := ⟨front, [⟨place, blockStart block⟩], split, entries,
            .written _ points block found data.toDataBlock rfl data.start.1 List.prefix_rfl⟩
          distinct := owns.distinct
          owned := owns.owned
          positive := by
            intro point member
            rcases List.mem_append.mp member with inComplete | inStream
            · obtain ⟨points, present, inside⟩ := List.mem_flatten.mp inComplete
              exact positive points present point inside
            · exact data.positive point inStream }
    · rw [all]
      exact collected.sorted

/-- The item keeps some timeseries. -/
def HoldsSeries (s : Nat) (content : Nat → Option Block) (item : StorageItem) : Prop :=
  ∃ series, ItemHolds s content item series

/-- Where the functions on an item with a timeseries can stop the process. -/
def SeriesStops (site : Abort) : Prop :=
  site = .storageWriteDiskPoints ∨ site = .storageWriteRetry ∨ DiskFull (.abort site)

/-- Every function on an item with a timeseries leaves it with one. -/
theorem seriesLaw (s : Nat) : ItemLaw s (HoldsSeries s) SeriesStops where
  owns := by
    rintro content item zero ⟨series, holds⟩
    exact holds.owns zero
  fresh := fun stream dataLen small unused => ⟨.empty, .fresh stream dataLen small unused⟩
  frame := by
    rintro content later item other ⟨series, holds⟩ different frame
    exact ⟨series, holds.frame different frame⟩
  trim := by
    rintro t content later item zero ⟨series, holds⟩ _ released
    exact ⟨series.trim t, holds.trimmed zero released⟩
  write := by
    rintro blocks state points ⟨disk, quiet, series, holds⟩ positive
    apply (storageWriteLoop_ends points ⟨disk, quiet, holds⟩ positive).mono
    · rintro _ after ⟨_, later, step⟩
      exact ⟨later, step.toItemChange, _, step.item⟩
    · rintro failure after ⟨site, _, _, _, rfl, _, stops⟩
      refine ⟨site, rfl, ?_⟩
      rcases stops with ⟨here, _⟩ | ⟨here, _⟩ | full
      · exact Or.inl here
      · exact Or.inr (Or.inl here)
      · exact Or.inr (Or.inr full)
  sync := by
    rintro blocks state ⟨disk, quiet, series, holds⟩
    apply (storageWriteDisk_ends ⟨disk, quiet, holds⟩ false).mono
    · rintro _ after ⟨_, later, step⟩
      exact ⟨later, step.toItemChange, _, step.item⟩
    · intro failure after stopped
      cases failure with
      | code err => exact ⟨blocks, stopped.2.2.toItemChange, _, stopped.2.2.item⟩
      | abort site =>
          rcases stopped with ⟨here, _⟩ | full
          · exact Or.inl here
          · exact Or.inr (Or.inr full)

end

/-- Only the last entry of an item may have no block or an active one, and an active block is the copy of the
stream in memory. -/
def ActiveLast (store : Storage) : Prop :=
  ∀ item ∈ store.items,
    (∀ entry ∈ item.dataOffsets.dropLast, ∃ block, LiveAt store.dataDiskStore entry.offset block ∧
      block.status = .valid) ∧
    ∀ entry, item.dataOffsets.getLast? = some entry → entry.offset ≠ 0 →
      ∃ block, LiveAt store.dataDiskStore entry.offset block ∧ block.status = .active ∧
        entry.startTime = tscStartTime item.data.data

/-- The active blocks are the newest of their items when the process is stopped. -/
def StorageOp.RestartsNewest (store : Storage) : StorageOp → Prop
  | .restart _ => NewestActive (blockAt (blocksOf store.dataDiskStore.fd.bytes))
  | _ => True

section
variable {store : Storage} {keyBlocks dataBlocks : List Block}

theorem StorageHolds.activeLast {s : Nat} (holds : StorageHolds (HoldsSeries s) store keyBlocks dataBlocks) :
    ActiveLast store := by
  intro item member
  obtain ⟨series, own⟩ := holds.items item member
  obtain ⟨front, last, split, entries, open_⟩ := own.entries
  have valid : ∀ entry ∈ front, ∃ block, LiveAt store.dataDiskStore entry.offset block ∧ block.status = .valid := by
    intro entry inside
    obtain ⟨points, _, held⟩ := entry_of_mem entries inside
    obtain ⟨block, found, data⟩ := held.block
    exact ⟨block, holds.dataDisk.liveAt_iff.mpr ⟨found, data.live⟩, data.status⟩
  rw [split]
  cases open_ with
  | unused first none =>
      rw [first, List.forall₂_nil_right_iff] at entries
      rw [entries]
      refine ⟨by simp, ?_⟩
      intro entry last
      cases last
  | unwritten startTime none =>
      rw [List.dropLast_concat, List.getLast?_concat]
      refine ⟨valid, ?_⟩
      rintro _ ⟨⟩ nonzero
      exact absurd rfl nonzero
  | written entry points block found data copy start part =>
      rw [List.dropLast_concat, List.getLast?_concat]
      refine ⟨valid, ?_⟩
      rintro _ ⟨⟩ _
      refine ⟨block, holds.dataDisk.liveAt_iff.mpr ⟨found, data.live⟩, data.status, ?_⟩
      have some : series.stream ≠ [] := by
        obtain ⟨behind, rest⟩ := part
        rw [← rest]
        exact List.append_ne_nil_of_left_ne_nil (nonempty_of_start start) _
      have whole := own.startTime some
      obtain ⟨behind, rest⟩ := part
      rw [← rest] at whole
      cases points with
      | nil => cases start
      | cons point points => exact (Option.some.inj start).symm.trans (Option.some.inj whole)

/-- The first loop of a load does not find an active block before another one. -/
theorem NewestActive.loads (newest : NewestActive (blockAt dataBlocks)) {failure : Failure}
    (failed : LoadFails keyBlocks dataBlocks failure) : failure ≠ .abort .storageLoadLastBlock := by
  rintro rfl
  rcases failed with (⟨code, _⟩ | ⟨_, place, block, offset, other, found, active, there, live, carried, less⟩) | ⟨site, _⟩
  · cases code
  · have elsewhere : offset ≠ place := by
      rintro rfl
      rw [found] at there
      rw [Option.some.inj there] at less
      exact absurd less (lt_irrefl _)
    rcases newest place block other offset found active there live carried elsewhere with later | ⟨same, _⟩
    · exact absurd less (not_lt.mpr (le_of_lt later))
    · exact absurd less (not_lt.mpr (le_of_eq same))
  · cases site

end

/-- In every run in which a restart finds the active blocks to be the newest of their items, the open block of
every item is the last one, and no check of it fails. -/
theorem storageRun_activeLast {retentionSeconds : Int} {s : Nat} {events : List Event} {store : Storage}
    (large : 4 < s)
    (run : StorageRun retentionSeconds s (fun _ store op => op.Valid ∧ op.RestartsNewest store) events store) :
    ActiveLast store ∧
      (∀ op : StorageOp, op.Valid → op.RestartsNewest store → op.run.Ends store (fun _ _ => True) fun failure _ =>
        failure ≠ .abort .storageLoadLastBlock ∧ failure ≠ .abort .storageWriteDiskStart) ∧
      ∀ key maxNumPts, (storageGet key maxNumPts).Ends store (fun _ _ => True) fun failure _ =>
        failure ≠ .abort .storageGetActive := by
  obtain ⟨size, names, later, holds⟩ := run.kept (seriesLaw s) large (fun _ _ _ meets => meets.1) (by
    intro events store memory keyBlocks dataBlocks meets holds item made
    have newest : NewestActive (blockAt (blocksOf store.dataDiskStore.fd.bytes)) := meets.2
    rw [holds.dataDisk.toDiskFiles.blocksOf] at newest
    obtain ⟨series, own, _⟩ := made.holds newest (blockAt_zero dataBlocks)
    exact ⟨series, own⟩)
  subst size
  refine ⟨holds.activeLast, ?_, ?_⟩
  · intro op valid ordered
    have newest : ∀ memory, op = .restart memory → NewestActive (blockAt later) := by
      rintro memory rfl
      have newest : NewestActive (blockAt (blocksOf store.dataDiskStore.fd.bytes)) := ordered
      rwa [holds.dataDisk.toDiskFiles.blocksOf] at newest
    apply (op.run_kept (seriesLaw _) large holds valid (by
      intro memory restart item made
      obtain ⟨series, own, _⟩ := made.holds (newest memory restart) (blockAt_zero later)
      exact ⟨series, own⟩)).mono
    · exact fun _ _ _ => trivial
    · intro failure after failed
      have other : ∀ site, SeriesStops site → site ≠ .storageLoadLastBlock ∧ site ≠ .storageWriteDiskStart := by
        rintro site (rfl | rfl | full | full)
        · simp
        · simp
        · cases full
          simp
        · cases full
          simp
      cases op with
      | write key points =>
          rcases failed with ⟨site, rfl, stops⟩ | rfl | ⟨rfl, _⟩ | rfl | rfl
          · simpa using other site stops
          all_goals simp
      | sync =>
          obtain ⟨site, rfl, stops⟩ := failed
          simpa using other site stops
      | clean now => exact failed.elim
      | restart memory =>
          refine ⟨(newest memory rfl).loads failed, ?_⟩
          rintro rfl
          rcases failed with (⟨code, _⟩ | ⟨site, _⟩) | ⟨site, _⟩
          · cases code
          · cases site
          · cases site
  · intro key maxNumPts
    by_cases present : ∃ item ∈ store.items, item.key = some key
    · obtain ⟨item, member, named⟩ := present
      obtain ⟨series, own⟩ := holds.items item member
      apply (storageGet_ends holds member named own maxNumPts).mono (fun _ _ _ => trivial)
      rintro failure after (⟨rfl, _⟩ | ⟨rfl, _⟩) <;> simp
    · exact EStateM.ends_of_error
        (storageGet_missing (fun item member named => present ⟨item, member, named⟩) maxNumPts) (by simp)

/-- A point completes a block, and the next block is copied to disk. -/
theorem storageRun_activeLast_synced :
    ∃ events store, StorageRun 10 28 (fun _ store op => op.Valid ∧ op.RestartsNewest store) events store ∧
      store.items.map (fun item => item.dataOffsets.length) = [2] ∧ ActiveLast store := by
  have passed : (initAndRun 10 28 [.write [97] [(3#64, 7#64), (5#64, 7#64)], .sync] newStorage).passes
      (fun _ store => store.items.map (fun item => item.dataOffsets.length) = [2]) = true := by
    decide +kernel
  obtain ⟨results, store, run, items⟩ := EStateM.Result.of_passes passed
  have valid : ∀ op ∈ [StorageOp.write [97] [(3#64, 7#64), (5#64, 7#64)], .sync], op.Valid := by
    decide
  have newest : ∀ op ∈ [StorageOp.write [97] [(3#64, 7#64), (5#64, 7#64)], .sync], ∀ store : Storage,
      op.RestartsNewest store := by
    simp [StorageOp.RestartsNewest]
  have reached := @StorageRun.of_init 10 28 (fun _ store op => op.Valid ∧ op.RestartsNewest store) _ _ _
    (fun op member _ store => ⟨valid op member, newest op member store⟩) run
  exact ⟨_, store, reached, by simpa using items, (storageRun_activeLast (by decide) reached).1⟩

/-- A late point opens a block before the one that is full, and the next load stops. -/
theorem storageLoad_lateBlock :
    ∃ events store after, StorageRun 10 28 (fun _ _ op => op.Valid) events store ∧
      (StorageOp.restart fun _ _ => 0).run store = .error (.abort .storageLoadLastBlock) after := by
  have passed : (initAndRun 10 28 [.write [97] [(5#64, 7#64)], .write [97] [(3#64, 7#64)], .sync] newStorage).passes
      (fun _ store => ((StorageOp.restart fun _ _ => 0).run store).failsWith (.abort .storageLoadLastBlock)) =
        true := by
    decide +kernel
  obtain ⟨results, store, run, stopped⟩ := EStateM.Result.of_passes passed
  have valid : ∀ op ∈ [StorageOp.write [97] [(5#64, 7#64)], .write [97] [(3#64, 7#64)], .sync], op.Valid := by
    decide
  obtain ⟨after, failed⟩ := EStateM.Result.of_failsWith stopped
  exact ⟨_, store, after, StorageRun.of_init (fun op member _ _ => valid op member) run, failed⟩

end Menoetius
