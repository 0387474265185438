import Menoetius.StorageActive

/-
This file follows a restart of a storage whose blocks were filled in the order of time.
-/

namespace Menoetius
open LittleEndian

/-- The blocks of the timeseries start one after the other. -/
def Series.Ordered (series : Series) : Prop := series.startTimes.Pairwise (· < ·)

/-- The data offsets of the blocks on disk. -/
def StorageItem.onDisk (item : StorageItem) : List OffsetAndTime :=
  item.dataOffsets.filter fun entry => entry.offset ≠ 0

/-- A data offset of a block in use with this internal id. -/
def EntryOf (content : Nat → Option Block) (internalId : Nat) (entry : OffsetAndTime) : Prop :=
  ∃ block, content entry.offset = some block ∧ block.Live ∧ carriedId block = internalId ∧
    entry.startTime = blockStart block

section
variable {s : Nat} {content : Nat → Option Block} {item other : StorageItem} {series found : Series}

theorem DataBlock.startTime {internalId : Nat} {completeBlock : Bool} {points : List Point} {block : Block}
    {startTime : Word} (data : DataBlock s internalId completeBlock points block)
    (positive : ∀ point ∈ points, 0 < point.1.toInt) (start : points.head?.map Prod.fst = some startTime) :
    startTime = blockStart block := by
  have point : PointBlock s internalId completeBlock points block := ⟨data, nonempty_of_start start, positive⟩
  have same := point.start.1
  rw [start] at same
  exact Option.some.inj same

/-- The entries of the blocks on disk, complete ones first. -/
theorem ItemHolds.onDisk (holds : ItemHolds s content item series) (zero : content 0 = none) :
    ∃ front last, item.onDisk = front ++ last ∧
      List.Forall₂ (EntryHolds s content item.internalId) front series.complete ∧
      (last = [] ∧ series.active = none ∨ ∃ entry points block, last = [entry] ∧ series.active = some points ∧
        content entry.offset = some block ∧ DataBlock s item.internalId false points block ∧
        points.head?.map Prod.fst = some entry.startTime) := by
  obtain ⟨front, last, split, entries, open_⟩ := holds.entries
  have kept : front.filter (fun entry => entry.offset ≠ 0) = front := by
    rw [List.filter_eq_self]
    intro entry member
    simpa using entries_nonzero entries zero entry member
  rw [StorageItem.onDisk, split, List.filter_append, kept]
  cases open_ with
  | unused first none => exact ⟨front, [], rfl, entries, Or.inl ⟨rfl, none⟩⟩
  | unwritten startTime none =>
      exact ⟨front, [], by rw [List.filter_cons_of_neg (by simp), List.filter_nil], entries, Or.inl ⟨rfl, none⟩⟩
  | written entry points block found data copy start part =>
      have nonzero : entry.offset ≠ 0 := by
        intro none
        rw [none, zero] at found
        cases found
      refine ⟨front, [entry], ?_, entries, Or.inr ⟨entry, points, block, rfl, copy, found, data, start⟩⟩
      rw [List.filter_cons_of_pos (by simpa using nonzero), List.filter_nil]

/-- A timeseries with a block has a data offset of it. -/
theorem ItemHolds.exists_onDisk (holds : ItemHolds s content item series) (zero : content 0 = none)
    (some : ¬ (series.complete = [] ∧ series.active = none)) : ∃ entry, entry ∈ item.onDisk := by
  obtain ⟨front, last, split, entries, open_⟩ := holds.onDisk zero
  rw [split]
  rcases open_ with ⟨none, absent⟩ | ⟨entry, _, _, only, _⟩
  · have complete : series.complete ≠ [] := fun none => some ⟨none, absent⟩
    obtain ⟨points, rest, blocks⟩ := List.exists_cons_of_ne_nil complete
    rw [blocks] at entries
    obtain ⟨entry, others, _, _, rfl⟩ := List.forall₂_cons_right_iff.mp entries
    exact ⟨entry, List.mem_append_left _ List.mem_cons_self⟩
  · exact ⟨entry, by rw [only]; simp⟩

theorem ItemHolds.activePositive (holds : ItemHolds s content item series) {points : List Point}
    (copy : series.active = some points) : ∀ point ∈ points, 0 < point.1.toInt := by
  obtain ⟨front, last, _, _, open_⟩ := holds.entries
  cases open_ with
  | unused first none =>
      rw [none] at copy
      cases copy
  | unwritten startTime none =>
      rw [none] at copy
      cases copy
  | written entry other block found data copy' start part =>
      rw [copy] at copy'
      rw [Option.some.inj copy']
      exact fun point member => holds.streamPositive point (part.subset member)

/-- The entries on disk are those of the blocks in use with the internal id. -/
theorem ItemHolds.mem_onDisk (holds : ItemHolds s content item series) (zero : content 0 = none)
    (entry : OffsetAndTime) : entry ∈ item.onDisk ↔ EntryOf content item.internalId entry := by
  have small := holds.small
  obtain ⟨front, last, split, entries, open_⟩ := holds.onDisk zero
  have each : ∀ entry ∈ item.onDisk, EntryOf content item.internalId entry := by
    intro entry member
    rw [split] at member
    rcases List.mem_append.mp member with inFront | inLast
    · obtain ⟨points, present, held⟩ := entry_of_mem entries inFront
      obtain ⟨block, found, data⟩ := held.block
      exact ⟨block, found, data.live, data.carries (by omega),
        data.startTime (holds.completePositive present) held.start⟩
    · rcases open_ with ⟨none, _⟩ | ⟨only, points, block, same, copy, found, data, start⟩
      · rw [none] at inLast
        cases inLast
      · rw [same, List.mem_singleton] at inLast
        rw [inLast]
        exact ⟨block, found, data.live, data.carries (by omega), data.startTime (holds.activePositive copy) start⟩
  constructor
  · exact each entry
  · rintro ⟨block, found, live, carried, start⟩
    obtain ⟨known, member, same⟩ := List.mem_map.mp (holds.owned entry.offset block found live carried)
    have nonzero : known.offset ≠ 0 := by
      intro none
      rw [same] at none
      rw [none, zero] at found
      cases found
    have inside : known ∈ item.onDisk := List.mem_filter.mpr ⟨member, by simpa using nonzero⟩
    obtain ⟨block', found', _, _, start'⟩ := each known inside
    rw [same, found] at found'
    rw [← Option.some.inj found', ← start] at start'
    have equal : known = entry := by
      cases known
      cases entry
      cases same
      cases start'
      rfl
    rw [← equal]
    exact inside

theorem ItemHolds.onDisk_nodup (holds : ItemHolds s content item series) : item.onDisk.Nodup :=
  (List.Nodup.of_map _ holds.distinct).sublist List.filter_sublist

/-- The start times of the entries on disk. -/
theorem ItemHolds.onDisk_times (holds : ItemHolds s content item series) (zero : content 0 = none) :
    item.onDisk.map OffsetAndTime.time = series.startTimes := by
  obtain ⟨front, last, split, entries, open_⟩ := holds.onDisk zero
  rw [split, List.map_append, entries_times entries, Series.startTimes, List.filterMap_append]
  rcases open_ with ⟨none, absent⟩ | ⟨entry, points, block, same, copy, _, _, start⟩
  · rw [none, absent]
    rfl
  · obtain ⟨point, head, time⟩ := Option.map_eq_some_iff.mp start
    rw [same, copy, Option.toList_some, List.filterMap_cons, head, List.map_singleton, OffsetAndTime.time, ← time]
    rfl

/-- Blocks that start one after the other are in order on disk. -/
theorem ItemHolds.onDisk_sorted (holds : ItemHolds s content item series) (zero : content 0 = none)
    (ordered : series.Ordered) : item.onDisk.Pairwise OffsetAndTime.Before := by
  rw [Series.Ordered, ← holds.onDisk_times zero, List.pairwise_map] at ordered
  exact ordered.imp fun less => Or.inl less

theorem entries_unique {internalId : Nat} {front : List OffsetAndTime} {complete again : List (List Point)}
    (entries : List.Forall₂ (EntryHolds s content internalId) front complete)
    (entries' : List.Forall₂ (EntryHolds s content internalId) front again) : complete = again := by
  induction entries generalizing again with
  | nil =>
      cases entries'
      rfl
  | @cons entry points front complete first rest ih =>
      cases entries' with
      | @cons _ points' _ complete' first' rest' =>
          obtain ⟨block, found, data⟩ := first.block
          obtain ⟨block', found', data'⟩ := first'.block
          rw [found] at found'
          rw [← Option.some.inj found'] at data'
          rw [data.points_eq data', ih rest']

/-- An item that was loaded keeps what the item before it had on disk. -/
theorem ItemHolds.reload_eq (holds : ItemHolds s content item series) (loaded : ItemHolds s content other found)
    (same : other.internalId = item.internalId) (zero : content 0 = none) (ordered : series.Ordered)
    (sorted : other.onDisk.Pairwise OffsetAndTime.Before) (stream : found.stream = found.active.getD []) :
    found = series.reload := by
  have equal : item.onDisk = other.onDisk := by
    have perm : item.onDisk.Perm other.onDisk := by
      rw [List.perm_ext_iff_of_nodup holds.onDisk_nodup loaded.onDisk_nodup]
      intro entry
      rw [holds.mem_onDisk zero, loaded.mem_onDisk zero, same]
    refine perm.eq_of_pairwise ?_ (holds.onDisk_sorted zero ordered) sorted
    intro first second _ _ before after
    exact absurd after before.asymm
  obtain ⟨front, last, split, entries, open_⟩ := holds.onDisk zero
  obtain ⟨front', last', split', entries', open'⟩ := loaded.onDisk zero
  rw [same] at entries'
  have valid : ∀ {front : List OffsetAndTime} {complete : List (List Point)},
      List.Forall₂ (EntryHolds s content item.internalId) front complete → ∀ entry ∈ front, ∀ block,
        content entry.offset = some block → block.status ≠ .active := by
    intro front complete entries entry member block there active
    obtain ⟨points, _, held⟩ := entry_of_mem entries member
    obtain ⟨again, there', data⟩ := held.block
    rw [there] at there'
    rw [← Option.some.inj there'] at data
    rw [data.status] at active
    cases active
  rw [split, split'] at equal
  have parts : series.complete = found.complete ∧ series.active = found.active := by
    rcases open_ with ⟨none, absent⟩ | ⟨entry, points, block, only, copy, there, data, start⟩
    · rcases open' with ⟨none', absent'⟩ | ⟨entry', points', block', only', copy', there', data', start'⟩
      · rw [none, none', List.append_nil, List.append_nil] at equal
        rw [← equal] at entries'
        exact ⟨entries_unique entries entries', absent.trans absent'.symm⟩
      · rw [none, only', List.append_nil] at equal
        exact absurd data'.status (valid entries entry' (by rw [equal]; simp) block' there')
    · rcases open' with ⟨none', absent'⟩ | ⟨entry', points', block', only', copy', there', data', start'⟩
      · rw [only, none', List.append_nil] at equal
        exact absurd data.status (valid entries' entry (by rw [← equal]; simp) block there)
      · rw [only, only'] at equal
        obtain ⟨fronts, lasts⟩ := List.append_inj' equal rfl
        rw [← fronts] at entries'
        rw [← (List.cons.inj lasts).1, there] at there'
        rw [← Option.some.inj there', same] at data'
        exact ⟨entries_unique entries entries', by rw [copy, copy', data.points_eq data']⟩
  cases found with
  | mk complete active points =>
      obtain ⟨completes, actives⟩ := parts
      dsimp only at completes actives stream
      rw [Series.reload, completes, actives, stream]

end

/-- The model after a restart: keys without a block are gone. -/
def Model.reload (model : Model) : Model := fun key =>
  (model key).bind fun series =>
    if series.complete = [] ∧ series.active = none then none else some series.reload

/-- The model after a clean: keys whose points in memory are old are gone. -/
def Model.clean (t : Int) (model : Model) : Model := fun key =>
  (model key).bind fun series => if series.lastTime < t then none else some (series.trim t)

/-- All timeseries have their blocks in order. -/
def Model.Ordered (model : Model) : Prop := ∀ key series, model key = some series → series.Ordered

section
variable {store after : Storage} {keyBlocks dataBlocks names : List Block} {model : Model}

/-- The active blocks of timeseries in order are the newest. -/
theorem StorageModels.newestActive (models : StorageModels store keyBlocks dataBlocks model) (ordered : model.Ordered) :
    NewestActive (blockAt dataBlocks) := by
  have zero := blockAt_zero dataBlocks
  intro place block other offset found active there live carried elsewhere
  obtain ⟨item, member, id⟩ := models.dataOwned place block found (Or.inr active)
  obtain ⟨key, series, _, kept, holds⟩ := models.items item member
  have small := holds.small
  have sorted := holds.onDisk_sorted zero (ordered key series kept)
  have mine : (⟨place, blockStart block⟩ : OffsetAndTime) ∈ item.onDisk :=
    (holds.mem_onDisk zero _).mpr ⟨block, found, Or.inr active, id, rfl⟩
  have theirs : (⟨offset, blockStart other⟩ : OffsetAndTime) ∈ item.onDisk :=
    (holds.mem_onDisk zero _).mpr ⟨other, there, live, carried.trans id, rfl⟩
  obtain ⟨front, last, split, entries, open_⟩ := holds.onDisk zero
  have notFront : (⟨place, blockStart block⟩ : OffsetAndTime) ∉ front := by
    intro inFront
    obtain ⟨points, _, held⟩ := entry_of_mem entries inFront
    obtain ⟨again, found', data⟩ := held.block
    rw [show (⟨place, blockStart block⟩ : OffsetAndTime).offset = place from rfl, found] at found'
    rw [← Option.some.inj found'] at data
    rw [data.status] at active
    cases active
  rcases open_ with ⟨none, _⟩ | ⟨entry, points, _, only, _⟩
  · rw [split, none, List.append_nil] at mine
    exact absurd mine notFront
  · rw [split, only] at mine theirs sorted
    rw [List.mem_append, List.mem_singleton] at mine theirs
    have this := mine.resolve_left notFront
    rw [← this] at theirs sorted
    rcases theirs with inFront | same
    · exact (List.pairwise_append.mp sorted).2.2 _ inFront _ List.mem_cons_self
    · exact absurd (congrArg OffsetAndTime.offset same) elsewhere

/-- An item after a restart has the internal id and the key of an item before it. -/
theorem StorageHolds.before {keeps kept : (Nat → Option Block) → StorageItem → Prop} {later : List Block}
    (holds : StorageHolds keeps store keyBlocks dataBlocks) (loaded : StorageHolds kept after names later)
    (fewer : FewerLive (blockAt keyBlocks) (blockAt names)) {item : StorageItem} (member : item ∈ after.items) :
    ∃ old ∈ store.items, old.internalId = item.internalId ∧ old.key = item.key := by
  obtain ⟨block, found, live, id, named, _⟩ := loaded.keyBlock member
  have there := fewer _ _ found live
  obtain ⟨old, present, place⟩ := holds.keyOwned _ block there live
  obtain ⟨again, found', _, id', named', _⟩ := holds.keyBlock present
  rw [place, there] at found'
  rw [← Option.some.inj found'] at id' named'
  exact ⟨old, present, id'.symm.trans id, named'.trans named.symm⟩

/-- A restart keeps what is on disk. -/
theorem StorageModels.reload (models : StorageModels store keyBlocks dataBlocks model) (ordered : model.Ordered)
    (loaded : StorageHolds (Reloaded store.initialTscBufSize) after names dataBlocks)
    (same : after.initialTscBufSize = store.initialTscBufSize)
    (fewer : FewerLive (blockAt keyBlocks) (blockAt names)) :
    StorageModels after names dataBlocks model.reload := by
  have zero := blockAt_zero dataBlocks
  have newest := models.newestActive ordered
  constructor
  · rw [same]
    apply loaded.mono
    intro item member made
    obtain ⟨old, present, id, key⟩ := models.toStorageHolds.before loaded fewer member
    obtain ⟨name, series, named, kept, holds⟩ := models.items old present
    obtain ⟨found, own, stream, onDisk, sorted⟩ := made.holds newest zero
    have equal := holds.reload_eq own id.symm zero (ordered name series kept) sorted stream
    refine ⟨name, series.reload, key.symm.trans named, ?_, by rw [← equal]; exact own⟩
    rw [Model.reload, kept, Option.bind_some, if_neg]
    rintro ⟨none, absent⟩
    rw [equal] at onDisk
    rcases onDisk with some | some
    · exact some none
    · exact some absent
  · intro key series found
    rw [Model.reload, Option.bind_eq_some_iff] at found
    obtain ⟨before, kept, found⟩ := found
    obtain ⟨old, present, named, holds⟩ := models.find kept
    have some : ¬ (before.complete = [] ∧ before.active = none) := by
      intro nothing
      rw [if_pos nothing] at found
      cases found
    obtain ⟨entry, inside⟩ := holds.exists_onDisk zero some
    obtain ⟨block, there, live, carried, _⟩ := (holds.mem_onDisk zero entry).mp inside
    obtain ⟨item, member, id⟩ := loaded.dataOwned _ block there live
    obtain ⟨old', present', id', key'⟩ := models.toStorageHolds.before loaded fewer member
    have equal := eq_of_nodup_map models.ids present' present (id'.trans (id.symm.trans carried))
    exact ⟨item, member, by rw [← key', equal, named]⟩

/-- The timeseries before and after a clean. -/
theorem keepsLaw (s : Nat) (t : Int) (model : Model) : CleanLaw s t (Keeps s model) (Keeps s (model.clean t)) where
  owns := by
    rintro content item zero ⟨_, _, _, _, holds⟩
    exact holds.owns zero
  frame := by
    rintro content later item other ⟨key, series, named, found, holds⟩ different frame
    exact ⟨key, series, named, found, holds.frame different frame⟩
  frameDone := by
    rintro content later item other ⟨key, series, named, found, holds⟩ different frame
    exact ⟨key, series, named, found, holds.frame different frame⟩
  trim := by
    rintro content later item zero ⟨key, series, named, found, holds⟩ alive released
    refine ⟨key, series.trim t, named, ?_, holds.trimmed zero released⟩
    rw [Model.clean, found, Option.bind_some, if_neg]
    rw [← holds.stream.lastTime]
    exact alive

/-- A clean drops what is old, and keeps what else is known of the items that stay. -/
theorem StorageModels.cleanWith (models : StorageModels store keyBlocks dataBlocks model) (now : Int)
    {extra : (Nat → Option Block) → StorageItem → Prop}
    (law : CleanLaw store.initialTscBufSize (now - store.retentionSeconds)
      (fun content item => Keeps store.initialTscBufSize model content item ∧ extra content item)
      (fun content item => Keeps store.initialTscBufSize (model.clean (now - store.retentionSeconds)) content item ∧
        extra content item))
    (known : ∀ item ∈ store.items, extra (blockAt dataBlocks) item) :
    ∃ after names later, cleanItems now store = .ok () after ∧ SameConfig store after ∧
      StorageModels after names later (model.clean (now - store.retentionSeconds)) ∧
      ∀ item ∈ after.items, extra (blockAt later) item := by
  obtain ⟨after, names, later, run, holds, same, items⟩ := cleanItems_run law
    (models.toStorageHolds.mono fun item member kept => ⟨kept, known item member⟩)
  refine ⟨after, names, later, run, same, ⟨?_, ?_⟩, fun item member => (holds.items item member).2⟩
  · rw [same.initialTscBufSize]
    exact holds.mono fun _ _ kept => kept.1
  · intro key series found
    rw [Model.clean, Option.bind_eq_some_iff] at found
    obtain ⟨before, kept, found⟩ := found
    obtain ⟨item, member, named, own⟩ := models.find kept
    have alive : ¬ item.Expired (now - store.retentionSeconds) := by
      intro old
      rw [StorageItem.Expired, own.stream.lastTime] at old
      rw [if_pos old] at found
      cases found
    refine ⟨item.trimmed (now - store.retentionSeconds), ?_, named⟩
    rw [items]
    exact List.mem_map_of_mem (List.mem_filter.mpr ⟨member, by simpa using alive⟩)

theorem StorageModels.clean (models : StorageModels store keyBlocks dataBlocks model) (now : Int) :
    ∃ after names later, cleanItems now store = .ok () after ∧ SameConfig store after ∧
      StorageModels after names later (model.clean (now - store.retentionSeconds)) := by
  have law := keepsLaw store.initialTscBufSize (now - store.retentionSeconds) model
  obtain ⟨after, names, later, run, same, kept, _⟩ := @StorageModels.cleanWith _ _ _ _ models now
    (fun _ _ => True)
    { owns := fun zero holds => law.owns zero holds.1
      frame := fun holds different frame => ⟨law.frame holds.1 different frame, trivial⟩
      frameDone := fun holds different frame => ⟨law.frameDone holds.1 different frame, trivial⟩
      trim := fun zero holds alive released => ⟨law.trim zero holds.1 alive released, trivial⟩ }
    fun _ _ => trivial
  exact ⟨after, names, later, run, same, kept⟩

end

end Menoetius
