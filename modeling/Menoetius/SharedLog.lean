import Menoetius.StorageRetention

/-
This file follows the accepted points of each key through writes, syncs and the work of the cleaner on single items.
-/

namespace Menoetius

/-- A call under the lock of the storage. A write of a connection is told from the writes of the others. -/
inductive LogEntry where
  | write (own : Bool) (key : List UInt8) (point : Point) (err : Option Err)
  | sync (err : Option Err)
  | clean (now : Int) (key : List UInt8)
  deriving DecidableEq

/-- The point of a write to the key for which `tsc_add` returned `ERR_OK`. -/
def LogEntry.accepted (key : List UInt8) : LogEntry → List Point
  | .write _ name point none => if name = key then [point] else []
  | _ => []

/-- The accepted points of a key, in the order of the calls. -/
def acceptedIn (log : List LogEntry) (key : List UInt8) : List Point := log.flatMap (LogEntry.accepted key)

/-- These are the last accepted points of the key, and the points before them were too old for the cleaner. -/
def StillHas (retentionSeconds : Int) (log : List LogEntry) (key : List UInt8) (points : List Point) : Prop :=
  ∃ dropped, acceptedIn log key = dropped ++ points ∧
    ∀ point ∈ dropped, ∃ now, LogEntry.clean now key ∈ log ∧ point.1.toInt < now - retentionSeconds

/-- The timeseries after the cleaner has passed one item. -/
def Model.cleanKey (t : Int) (name : List UInt8) (model : Model) : Model :=
  Function.update model name (model.clean t name)

/-- Every timeseries has a point in memory. A key whose points were accepted in the order of time has those that no clean
has dropped. -/
structure Model.Has (retentionSeconds : Int) (log : List LogEntry) (model : Model) : Prop where
  steady : ∀ key series, model key = some series → series.Sound ∧ series.stream ≠ []
  still : ∀ key, Increasing (acceptedIn log key) → StillHas retentionSeconds log key (model.seriesOf key).points

theorem acceptedIn_concat (log : List LogEntry) (entry : LogEntry) (key : List UInt8) :
    acceptedIn (log ++ [entry]) key = acceptedIn log key ++ entry.accepted key := by
  rw [acceptedIn, List.flatMap_append, List.flatMap_singleton]
  rfl

theorem acceptedIn_grows {log later : List LogEntry} (grown : log <+: later) (key : List UInt8) :
    acceptedIn log key <+: acceptedIn later key := by
  obtain ⟨new, rfl⟩ := grown
  rw [acceptedIn, acceptedIn, List.flatMap_append]
  exact List.prefix_append _ _

namespace Series

/-- A trim drops old points. -/
theorem Sound.trim_drops {series : Series} {t : Int} (sound : series.Sound) (increasing : Increasing series.points) :
    ∃ dropped, series.points = dropped ++ (series.trim t).points ∧ ∀ point ∈ dropped, point.1.toInt < t := by
  let count := (series.startTimes.takeWhile fun start => decide (start < t)).length - 1
  have split : series.points = (series.complete.take count).flatten ++ (series.trim t).points := by
    have rest : (series.trim t).points = (series.complete.drop count).flatten ++ series.stream := rfl
    rw [rest, ← List.append_assoc, ← List.flatten_append, List.take_append_drop]
    rfl
  refine ⟨_, split, fun point mem => ?_⟩
  by_contra young
  have inside : point ∈ series.points := by
    rw [split]
    exact List.mem_append_left _ mem
  have kept := sound.mem_trim increasing inside (not_lt.mp young)
  rw [split] at increasing
  exact lt_irrefl _ ((List.pairwise_append.mp increasing).2.2 point mem point kept)

end Series

/-- A call with one point stores it when it returns no error. -/
theorem WriteRun.single {s : Nat} {series : Series} {point : Point} {written : Written}
    (run : WriteRun s series [point] written) : written.stored = if written.err = none then [point] else [] := by
  cases run with
  | take takes more =>
      cases more
      rfl
  | refuse refuses => rfl

section
variable {s : Nat} {retentionSeconds : Int} {log : List LogEntry} {model : Model} {key : List UInt8} {points : List Point}

/-- More calls do not bring points back. -/
theorem StillHas.concat (still : StillHas retentionSeconds log key points) (entry : LogEntry) :
    StillHas retentionSeconds (log ++ [entry]) key (points ++ entry.accepted key) := by
  obtain ⟨dropped, split, old⟩ := still
  refine ⟨dropped, ?_, fun point mem => ?_⟩
  · rw [acceptedIn_concat, split, List.append_assoc]
  · obtain ⟨now, there, older⟩ := old point mem
    exact ⟨now, List.mem_append_left _ there, older⟩

/-- The cleaner drops points from the front. -/
theorem StillHas.clean (still : StillHas retentionSeconds log key points) {now : Int} {front rest : List Point}
    (split : points = front ++ rest) (old : ∀ point ∈ front, point.1.toInt < now - retentionSeconds) :
    StillHas retentionSeconds (log ++ [.clean now key]) key rest := by
  obtain ⟨dropped, accepted, older⟩ := still.concat (.clean now key)
  have nothing : LogEntry.accepted key (.clean now key) = [] := rfl
  rw [nothing, List.append_nil, split, ← List.append_assoc] at accepted
  refine ⟨dropped ++ front, accepted, fun point mem => ?_⟩
  rcases List.mem_append.mp mem with before | new
  · exact older point before
  · exact ⟨now, List.mem_append_right _ List.mem_cons_self, old point new⟩

theorem StillHas.increasing (still : StillHas retentionSeconds log key points)
    (increasing : Increasing (acceptedIn log key)) : Increasing points := by
  obtain ⟨dropped, split, _⟩ := still
  rw [split] at increasing
  exact increasing.sublist (List.sublist_append_right dropped points)

theorem Model.seriesOf_write (key name : List UInt8) (stored : List Point) :
    ((model.write s name stored).seriesOf key).points = (model.seriesOf key).points ++ if name = key then stored else [] := by
  by_cases here : key = name
  · subst here
    rw [seriesOf, write_self, if_pos rfl]
    exact Series.points_addAll s _ stored
  · rw [seriesOf, write_of_ne s model stored here, if_neg (Ne.symm here), List.append_nil]
    rfl

theorem Model.seriesOf_sync (key : List UInt8) : (model.sync.seriesOf key).points = (model.seriesOf key).points := by
  rw [seriesOf, sync, seriesOf]
  cases model key <;> rfl

/-- A clean drops old points of a key whose points are in the order of time. -/
theorem Model.seriesOf_clean {t : Int} (increasing : Increasing (model.seriesOf key).points)
    (steady : ∀ series, model key = some series → series.Sound ∧ series.stream ≠ []) :
    ∃ dropped, (model.seriesOf key).points = dropped ++ ((model.clean t).seriesOf key).points ∧
      ∀ point ∈ dropped, point.1.toInt < t := by
  rw [seriesOf] at increasing ⊢
  rw [seriesOf, clean]
  cases found : model key with
  | none => exact ⟨[], rfl, fun _ mem => absurd mem List.not_mem_nil⟩
  | some series =>
      rw [found] at increasing
      obtain ⟨sound, memory⟩ := steady series found
      rw [Option.bind_some]
      by_cases gone : series.lastTime < t
      · rw [if_pos gone]
        refine ⟨series.points, (List.append_nil _).symm, fun point mem => ?_⟩
        exact lt_of_le_of_lt (Series.lastTime_newest increasing memory mem) gone
      · rw [if_neg gone]
        exact sound.trim_drops increasing

theorem Model.seriesOf_cleanKey (t : Int) (name : List UInt8) :
    (model.cleanKey t name).seriesOf key = if key = name then (model.clean t).seriesOf key else model.seriesOf key := by
  rw [seriesOf, cleanKey]
  by_cases here : key = name
  · subst here
    rw [Function.update_self, if_pos rfl]
    rfl
  · rw [Function.update_of_ne here, if_neg here]
    rfl

/-- The points that were accepted before the last call were in the order of time. -/
theorem increasing_before {entry : LogEntry} (increasing : Increasing (acceptedIn (log ++ [entry]) key)) :
    Increasing (acceptedIn log key) :=
  increasing.sublist (acceptedIn_grows (List.prefix_append _ _) key).sublist

theorem Model.Has.empty : Model.Has retentionSeconds [] fun _ => none where
  steady := fun _ _ found => by cases found
  still := fun _ _ => ⟨[], rfl, fun _ mem => absurd mem List.not_mem_nil⟩

/-- A point that `storage_write` takes is added to its key. -/
theorem Model.Has.write (has : model.Has retentionSeconds log) (large : 28 ≤ s) {name : List UInt8} {point : Point}
    {written : Written} (run : WriteRun s (model.seriesOf name) [point] written) (own : Bool) :
    (model.write s name written.stored).Has retentionSeconds (log ++ [.write own name point written.err]) := by
  have accepts : ∀ key, LogEntry.accepted key (.write own name point written.err) =
      if name = key then written.stored else [] := by
    intro key
    rw [run.single]
    cases written.err <;> simp [LogEntry.accepted]
  constructor
  · intro key series found
    by_cases here : key = name
    · subst here
      rw [write_self] at found
      rw [← Option.some.inj found]
      rw [seriesOf] at run ⊢
      cases before : model key with
      | none =>
          rw [before] at run
          exact ⟨(run.sound .empty).1, Series.stream_addAll _ _ _
            (Or.inr (run.first_stored large rfl (List.cons_ne_nil _ _)))⟩
      | some old =>
          rw [before] at run
          obtain ⟨sound, memory⟩ := has.steady key old before
          exact ⟨(run.sound sound).1, Series.stream_addAll _ _ _ (Or.inl memory)⟩
    · rw [write_of_ne s model _ here] at found
      exact has.steady key series found
  · intro key increasing
    rw [seriesOf_write, ← accepts key]
    exact (has.still key (increasing_before increasing)).concat _

theorem Model.Has.sync (has : model.Has retentionSeconds log) (err : Option Err) :
    Model.Has retentionSeconds (log ++ [.sync err]) (if err = none then model.sync else model) := by
  constructor
  · intro key series found
    split at found
    · obtain ⟨old, before, rfl⟩ := Option.map_eq_some_iff.mp found
      obtain ⟨sound, memory⟩ := has.steady key old before
      exact ⟨sound.sync memory, memory⟩
    · exact has.steady key series found
  · intro key increasing
    have same : (Model.seriesOf (if err = none then model.sync else model) key).points = (model.seriesOf key).points := by
      split
      · exact seriesOf_sync key
      · rfl
    have more := (has.still key (increasing_before increasing)).concat (.sync err)
    rw [same, ← List.append_nil (model.seriesOf key).points]
    exact more

theorem Model.Has.clean (has : model.Has retentionSeconds log) (now : Int) (name : List UInt8) :
    (model.cleanKey (now - retentionSeconds) name).Has retentionSeconds (log ++ [.clean now name]) := by
  constructor
  · intro key series found
    by_cases here : key = name
    · subst here
      rw [cleanKey, Function.update_self] at found
      obtain ⟨old, before, kept⟩ := Option.bind_eq_some_iff.mp found
      obtain ⟨sound, memory⟩ := has.steady key old before
      split at kept
      · cases kept
      · rw [← Option.some.inj kept]
        exact ⟨sound.trim _, memory⟩
    · rw [cleanKey, Function.update_of_ne here] at found
      exact has.steady key series found
  · intro key increasing
    have still := has.still key (increasing_before increasing)
    rw [seriesOf_cleanKey]
    by_cases here : key = name
    · subst here
      rw [if_pos rfl]
      obtain ⟨dropped, split, old⟩ := @seriesOf_clean model key (now - retentionSeconds)
        (still.increasing (increasing_before increasing)) (has.steady key)
      exact still.clean split old
    · have more := still.concat (.clean now name)
      rw [if_neg here, ← List.append_nil (model.seriesOf key).points]
      exact more

end

end Menoetius
