import Menoetius.StorageFidelity

/-
This file shows when the points of a key are in the order of time.
-/

namespace Menoetius

/-- Every point is newer than the points before it. -/
def Increasing (points : List Point) : Prop :=
  points.Pairwise fun first second => first.1.toInt < second.1.toInt

instance (points : List Point) : Decidable (Increasing points) := inferInstanceAs (Decidable (List.Pairwise _ _))

/-- A point is newer than all points of a list. -/
def NewerThan (point : Point) (points : List Point) : Prop :=
  ∀ earlier ∈ points, earlier.1.toInt < point.1.toInt

theorem Increasing.concat {points : List Point} {point : Point} (increasing : Increasing points)
    (newer : NewerThan point points) : Increasing (points ++ [point]) :=
  List.pairwise_append.mpr ⟨increasing, List.pairwise_singleton _ _, fun earlier member other same => by
    rw [List.mem_singleton.mp same]
    exact newer earlier member⟩

namespace Series

/-- Each point of a write that meets a full block is newer than the points before it. -/
def OpensNewer (s : Nat) (series : Series) (points : List Point) : Prop :=
  ∀ front point back, points = front ++ point :: back → WriteRun s series front ⟨front, none⟩ →
    (series.addAll s front).Full s → NewerThan point (series.addAll s front).points

/-- A point that is taken is newer than the points in memory. -/
theorem Takes.newer {s : Nat} {series : Series} {point : Point} (takes : series.Takes s point)
    (increasing : Increasing series.points) (memory : series.stream = [] → series.points = [])
    (opens : series.Full s → NewerThan point series.points) : NewerThan point series.points := by
  by_cases full : series.Full s
  · exact opens full
  · rw [Takes, if_neg full] at takes
    rcases List.eq_nil_or_concat series.stream with none | ⟨front, last, stream⟩
    · rw [memory none]
      intro earlier member
      cases member
    · rw [List.concat_eq_append] at stream
      rw [stream] at takes
      have newest := admission_newer s front last point takes
      have split : series.points = (series.complete.flatten ++ front) ++ [last] := by
        rw [points, stream, List.append_assoc]
      rw [split] at increasing ⊢
      intro earlier member
      rcases List.mem_append.mp member with before | same
      · exact (((List.pairwise_append.mp increasing).2.2 earlier before last List.mem_cons_self)).trans newest
      · rw [List.mem_singleton.mp same]
        exact newest

/-- Points that come one after the other are never late. -/
theorem OpensNewer.of_increasing {s : Nat} {series : Series} {points : List Point}
    (increasing : Increasing (series.points ++ points)) : series.OpensNewer s points := by
  rintro front point back rfl _ _
  rw [points_addAll]
  rw [← List.append_assoc] at increasing
  exact fun earlier member => (List.pairwise_append.mp increasing).2.2 earlier member point List.mem_cons_self

theorem OpensNewer.rest {s : Nat} {series : Series} {point : Point} {rest : List Point}
    (opens : series.OpensNewer s (point :: rest)) (takes : series.Takes s point) :
    (series.add s point).OpensNewer s rest := by
  intro front next back split run full
  exact opens (point :: front) next back (by rw [split]; rfl) (.take takes run) full

end Series

/-- A write keeps the points in the order of time. -/
theorem WriteRun.increasing {s : Nat} {series : Series} {points : List Point} {written : Written}
    (run : WriteRun s series points written) (increasing : Increasing series.points)
    (memory : series.stream = [] → series.points = []) (opens : series.OpensNewer s points) :
    Increasing (series.points ++ written.stored) := by
  induction run with
  | nil series =>
      rw [List.append_nil]
      exact increasing
  | @take series point rest later takes more ih =>
      have newer := takes.newer increasing memory fun full => opens [] point rest rfl (.nil series) full
      have grown : Increasing (series.add s point).points := by
        rw [Series.points_add]
        exact increasing.concat newer
      have all := ih grown (fun none => absurd none (Series.stream_add s series point)) (opens.rest takes)
      rw [Series.points_add, List.append_assoc] at all
      exact all
  | refuse refuses =>
      rw [List.append_nil]
      exact increasing

namespace Series

theorem addAll_append (s : Nat) (series : Series) (points more : List Point) :
    series.addAll s (points ++ more) = (series.addAll s points).addAll s more :=
  List.foldl_append

theorem points_addAll_empty (s : Nat) (points : List Point) : (empty.addAll s points).points = points := by
  rw [points_addAll]
  rfl

/-- A timeseries that was only written to has a point in memory, or none at all. -/
theorem memory_addAll_empty (s : Nat) (points : List Point) :
    (empty.addAll s points).stream = [] → (empty.addAll s points).points = [] := by
  intro none
  by_cases some : points = []
  · rw [some]
    rfl
  · exact absurd none (stream_addAll s empty points (Or.inr some))

end Series

/-- A call of `storage_write` in which no point that meets a full block is late. -/
def StorageOp.WritesNewer (s : Nat) (events : List Event) : StorageOp → Prop
  | .write key points => (ValidKey key ∧ ∀ point ∈ points, 0 < point.1.toInt) ∧
      (Series.empty.addAll s (acceptedPoints events key)).OpensNewer s points
  | _ => False

/-- A call of `storage_write`. -/
def StorageOp.Writes : StorageOp → Prop
  | .write key points => ValidKey key ∧ ∀ point ∈ points, 0 < point.1.toInt
  | _ => False

theorem StorageOp.WritesNewer.valid {s : Nat} {events : List Event} {op : StorageOp}
    (meets : op.WritesNewer s events) : op.Valid := by
  cases op with
  | write key points => exact meets.1
  | _ => exact trivial

section
variable {s : Nat} {retentionSeconds : Int} {events : List Event}

/-- Without syncs, cleans and restarts a timeseries is made of the accepted points. -/
theorem History.seriesOf_writes
    (history : History s retentionSeconds (fun events op => op.WritesNewer s events) events) (key : List UInt8) :
    (modelOf s retentionSeconds events).seriesOf key = Series.empty.addAll s (acceptedPoints events key) := by
  induction history with
  | nil => rfl
  | @step events earlier event allowed explained ih =>
      obtain ⟨op, written⟩ := event
      cases op with
      | write name points =>
          rw [modelOf_concat, acceptedPoints_concat, acceptedPoints_write]
          by_cases here : key = name
          · subst here
            have value : (modelOf s retentionSeconds events).after s retentionSeconds
                ⟨.write key points, written⟩ key = _ := Model.write_self s _ key written.stored
            rw [Model.seriesOf, value, if_pos rfl, Series.addAll_append, ← ih]
            rfl
          · have value : (modelOf s retentionSeconds events).after s retentionSeconds
                ⟨.write name points, written⟩ key = _ := Model.write_of_ne s _ written.stored here
            rw [if_neg (Ne.symm here), List.append_nil, ← ih, Model.seriesOf, value]
            rfl
      | _ => exact allowed.elim

/-- The accepted points of a key are in the order of time. -/
theorem History.increasing
    (history : History s retentionSeconds (fun events op => op.WritesNewer s events) events) (key : List UInt8) :
    Increasing (acceptedPoints events key) := by
  induction history with
  | nil => exact List.Pairwise.nil
  | @step events earlier event allowed explained ih =>
      obtain ⟨op, written⟩ := event
      cases op with
      | write name points =>
          rw [acceptedPoints_concat, acceptedPoints_write]
          by_cases here : name = key
          · subst here
            have run : WriteRun s ((modelOf s retentionSeconds events).seriesOf name) points written := explained
            rw [earlier.seriesOf_writes name] at run
            have all := run.increasing (by rw [Series.points_addAll_empty]; exact ih)
              (Series.memory_addAll_empty s _) allowed.2
            rw [Series.points_addAll_empty] at all
            rw [if_pos rfl]
            exact all
          · rw [if_neg here, List.append_nil]
            exact ih
      | _ => exact allowed.elim

end

/-- A read after writes of which none is late at a full block returns points in the order of time. -/
theorem storageRun_increasing {s : Nat} {retentionSeconds : Int} {events : List Event} {store : Storage}
    (large : 4 < s)
    (run : StorageRun retentionSeconds s (fun events _ op => op.WritesNewer s events) events store) :
    ∀ key, Increasing (acceptedPoints events key) ∧ ∀ maxNumPts,
      (storageGet key maxNumPts).Ends store
        (fun points _ => points = acceptedPoints events key ∧ Increasing points)
        (fun failure _ => failure = .code .lookupFailed ∨ failure = .code .tooManyPoints ∨
          (failure = .abort .storageGetRead ∧ 2 ^ 20 < s + 38)) := by
  obtain ⟨size, _, history, names, later, models⟩ := run.models large (fun _ _ meets => meets.valid)
    fun _ _ _ meets => meets.elim
  subst size
  intro key
  have increasing := history.increasing key
  refine ⟨increasing, fun maxNumPts => ?_⟩
  cases found : modelOf store.initialTscBufSize retentionSeconds events key with
  | none => exact EStateM.ends_of_error (storageGet_absent models found maxNumPts) (Or.inl rfl)
  | some series =>
      have points : series.points = acceptedPoints events key := by
        rw [← Series.points_addAll_empty store.initialTscBufSize (acceptedPoints events key),
          ← history.seriesOf_writes key, Model.seriesOf, found]
        rfl
      obtain ⟨item, member, named, own⟩ := models.find found
      apply (storageGet_ends models.toStorageHolds member named own maxNumPts).mono
      · rintro result _ ⟨same, _⟩
        rw [same, points]
        exact ⟨rfl, increasing⟩
      · rintro failure _ (⟨code, _⟩ | ⟨site, entry, _, unread⟩)
        · exact Or.inr (Or.inl code)
        · refine Or.inr (Or.inr ⟨site, ?_⟩)
          by_contra small
          exact unread fun block there =>
            (models.dataBounded _ block there).trans (blockBound_le (Nat.le_of_not_lt small))

/-- The second point opens a block. -/
theorem storageRun_increasing_opened :
    ∃ events store, StorageRun 10 28 (fun events _ op => op.WritesNewer 28 events) events store ∧
      store.items.map (fun item => item.dataOffsets.length) = [2] ∧ Increasing (acceptedPoints events [97]) := by
  have passed : (initAndRun 10 28 [.write [97] [(3#64, 7#64), (5#64, 7#64)]] newStorage).passes
      (fun _ store => store.items.map (fun item => item.dataOffsets.length) = [2]) = true := by
    decide +kernel
  obtain ⟨results, store, run, items⟩ := EStateM.Result.of_passes passed
  obtain ⟨_, first, opened, run⟩ := EStateM.of_bind_ok run
  obtain ⟨written, last, wrote, run⟩ := EStateM.of_bind_ok run
  obtain rfl : last = store := by
    cases run
    rfl
  have meets : (StorageOp.write [97] [(3#64, 7#64), (5#64, 7#64)]).WritesNewer 28 [] :=
    ⟨by decide, .of_increasing (by decide)⟩
  have start : StorageRun 10 28 (fun events _ op => op.WritesNewer 28 events) [] first := .init _ opened
  have reached := start.step _ meets wrote
  exact ⟨_, last, reached, by simpa using items, (storageRun_increasing (by decide) reached [97]).1⟩

/-- A late point that meets a full block is taken. -/
theorem storageRun_late :
    ∃ events store after, StorageRun 10 28 (fun _ _ op => op.Writes) events store ∧
      storageGet [97] 2 store = .ok [(5#64, 7#64), (3#64, 7#64)] after ∧
      ¬ Increasing [(5#64, 7#64), (3#64, 7#64)] := by
  have passed : (initAndRun 10 28 [.write [97] [(5#64, 7#64)], .write [97] [(3#64, 7#64)]] newStorage).passes
      (fun _ store => (storageGet [97] 2 store).passes fun points _ => points = [(5#64, 7#64), (3#64, 7#64)]) =
        true := by
    decide +kernel
  obtain ⟨results, store, run, read⟩ := EStateM.Result.of_passes passed
  obtain ⟨points, after, read, same⟩ := EStateM.Result.of_passes read
  have writes : ∀ op ∈ [StorageOp.write [97] [(5#64, 7#64)], .write [97] [(3#64, 7#64)]], op.Writes := by
    intro op member
    simp only [List.mem_cons, List.not_mem_nil, or_false] at member
    rcases member with rfl | rfl
    · exact (by decide : (StorageOp.write [97] [(5#64, 7#64)]).Valid)
    · exact (by decide : (StorageOp.write [97] [(3#64, 7#64)]).Valid)
  have reached := @StorageRun.of_init 10 28 (fun _ _ op => op.Writes) _ _ _
    (fun op member _ _ => writes op member) run
  rw [of_decide_eq_true same] at read
  exact ⟨_, store, after, reached, read, by decide⟩

end Menoetius
