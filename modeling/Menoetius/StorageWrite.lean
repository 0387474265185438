import Menoetius.StorageWriteDisk

/-
This file follows the loop of `storage_write` on one item.
-/

namespace Menoetius

/-- The stream of an item has grown, or has only been touched behind its last point. -/
theorem ItemHolds.streamed {s : Nat} {content : Nat → Option Block} {item : StorageItem} {series : Series}
    (holds : ItemHolds s content item series) {data : TscHeader} {more : List Point}
    (stream : BlockHolds data (series.stream ++ more)) (size : data.dataLen = item.data.dataLen)
    (positive : ∀ point ∈ more, 0 < point.1.toInt) :
    ItemHolds s content { item with data := data } { series with stream := series.stream ++ more } := by
  obtain ⟨front, last, split, entries, open_⟩ := holds.entries
  refine { holds with
    stream := stream
    dataLen := size.trans holds.dataLen
    entries := ⟨front, last, split, entries, ?_⟩
    positive := ?_ }
  · cases open_ with
    | unused first none => exact .unused first none
    | unwritten startTime none => exact .unwritten startTime none
    | written entry points block found data copy start part =>
        exact .written entry points block found data copy start (part.trans (List.prefix_append _ _))
  · intro point member
    rw [Series.points, ← List.append_assoc] at member
    rcases List.mem_append.mp member with old | new
    · exact holds.positive point old
    · exact positive point new

section
variable {s : Nat} {blocks : List Block} {state : ItemStore} {series : Series}

theorem ItemAt.streamed (holds : ItemAt s blocks state series) {data : TscHeader} {more : List Point}
    (stream : BlockHolds data (series.stream ++ more)) (size : data.dataLen = state.item.data.dataLen)
    (positive : ∀ point ∈ more, 0 < point.1.toInt) :
    ItemStep s blocks blocks state { state with item := { state.item with data := data } }
      { series with stream := series.stream ++ more } :=
  ⟨⟨holds.disk, holds.quiet, rfl, rfl, rfl, Frame.refl _ _, id⟩, holds.item.streamed stream size positive⟩

theorem resultCode_onData_ok {action : EStateM Failure TscHeader Unit} {after : TscHeader}
    (run : action state.item.data = .ok () after) :
    resultCode (onData action) state = .ok none { state with item := { state.item with data := after } } :=
  resultCode_ok (onData_ok run)

theorem resultCode_onData_code {action : EStateM Failure TscHeader Unit} {after : TscHeader} {err : Err}
    (run : action state.item.data = .error (.code err) after) :
    resultCode (onData action) state =
      .ok (some err) { state with item := { state.item with data := after } } :=
  resultCode_code (onData_error run)

/-- Where the process can stop while a point is stored. -/
def WriteStops (s : Nat) (series : Series) (point : Point) (site : Abort) : Prop :=
  (site = .storageWriteDiskPoints ∧ series.Full s ∧ series.stream = []) ∨
    (site = .storageWriteRetry ∧ series.Full s ∧ admission s [] point ≠ none) ∨ DiskFull (.abort site)

/-- One call of `tsc_add` on the stream of an item. -/
theorem tscAdd_item (holds : ItemAt s blocks state series) (point : Point) :
    ∃ after, resultCode (onData (tscAdd point.1 point.2)) state =
        .ok (admission s series.stream point) after ∧
      ((admission s series.stream point = none → 0 < point.1.toInt) →
        ItemStep s blocks blocks state after (if admission s series.stream point = none then
          { series with stream := series.stream ++ [point] } else series)) := by
  have step := tscAdd_run state.item.data series.stream holds.item.stream point
  rw [holds.item.dataLen] at step
  cases verdict : admission s series.stream point with
  | none =>
      rw [verdict] at step
      obtain ⟨data, run, stored, size⟩ := step
      refine ⟨_, resultCode_onData_ok run, fun late => ?_⟩
      rw [if_pos rfl]
      exact holds.streamed stored (size.trans holds.item.dataLen.symm) (by simpa using late)
  | some err =>
      rw [verdict] at step
      obtain ⟨data, run, stored, size⟩ := step
      refine ⟨_, resultCode_onData_code run, fun _ => ?_⟩
      rw [if_neg (by simp)]
      rw [← List.append_nil series.stream] at stored
      have touched := holds.streamed stored (size.trans holds.item.dataLen.symm) (by simp)
      rwa [List.append_nil] at touched

/-- A point is stored, refused without a trace, or stops the process. -/
theorem storageWritePoint_ends (holds : ItemAt s blocks state series) (point : Point) :
    (storageWritePoint point).Ends state
      (fun _ after => 0 < point.1.toInt →
        series.Takes s point ∧ ∃ later, ItemStep s blocks later state after (series.add s point))
      (fun failure after =>
        match failure with
        | .code err => series.Refuses s point err ∧ ItemStep s blocks blocks state after series
        | .abort site => WriteStops s series point site) := by
  obtain ⟨next, run, step⟩ := tscAdd_item holds point
  unfold storageWritePoint
  apply EStateM.ends_bind_ok run
  by_cases full : series.Full s
  · -- the block is completed and the point opens a new one
    have verdict : admission s series.stream point = some .tscOutOfSpace := (admission_full s _ _).mpr full
    have step := step fun stored => by
      rw [verdict] at stored
      cases stored
    rw [verdict, if_neg (by simp)] at step
    rw [verdict]
    dsimp only
    apply EStateM.Ends.bind ((storageWriteDisk_ends step.toItemAt true).mono (fun _ _ done => done) ?_)
    · rintro _ flushed ⟨_, later, wrote⟩
      obtain ⟨after, again, stored⟩ := tscAdd_item wrote.toItemAt point
      apply EStateM.ends_bind_ok again
      have fresh : (series.wrote true).stream = [] := rfl
      rw [fresh] at stored ⊢
      cases verdict : admission s [] point with
      | none =>
          refine EStateM.ends_of_ok rfl fun late => ⟨by rw [Series.Takes, if_pos full]; exact verdict, later, ?_⟩
          have stored := stored fun _ => late
          rw [verdict, if_pos rfl] at stored
          rw [Series.add, if_pos full]
          exact (step.trans wrote).trans stored
      | some err =>
          exact EStateM.ends_of_error rfl (Or.inr (Or.inl ⟨rfl, full, by rw [verdict]; simp⟩))
    · intro failure after failed
      cases failure with
      | code err =>
          obtain ⟨code, large, kept⟩ := failed
          exact ⟨by rw [Series.Refuses, if_pos full]; exact ⟨code, large⟩, step.trans kept⟩
      | abort site =>
          rcases failed with ⟨site, none⟩ | full
          · exact Or.inl ⟨site, by assumption, none⟩
          · exact Or.inr (Or.inr full)
  · cases verdict : admission s series.stream point with
    | none =>
        refine EStateM.ends_of_ok rfl fun late => ⟨by rw [Series.Takes, if_neg full]; exact verdict, blocks, ?_⟩
        have step := step fun _ => late
        rw [verdict, if_pos rfl] at step
        rw [Series.add, if_neg full]
        exact step
    | some err =>
        have step := step fun stored => by
          rw [verdict] at stored
          cases stored
        rw [verdict, if_neg (by simp)] at step
        have refused : series.Refuses s point err := by
          rw [Series.Refuses, if_neg full]
          exact verdict
        have other := Series.refuses_ne_outOfSpace refused
        refine @EStateM.ends_of_error _ _ _ _ _ _ _ (.code err) next ?_ ⟨refused, step⟩
        cases err with
        | tscOutOfSpace => exact absurd rfl other
        | _ => rfl

/-- What a call of `storage_write` does to a timeseries. -/
inductive WriteRun (s : Nat) : Series → List Point → Written → Prop
  | nil (series : Series) : WriteRun s series [] ⟨[], none⟩
  | take {series : Series} {point : Point} {rest : List Point} {later : Written} (takes : series.Takes s point)
      (more : WriteRun s (series.add s point) rest later) :
      WriteRun s series (point :: rest) ⟨point :: later.stored, later.err⟩
  | refuse {series : Series} {point : Point} {rest : List Point} {err : Err}
      (refuses : series.Refuses s point err) : WriteRun s series (point :: rest) ⟨[], some err⟩

/-- The stored points are the first ones. -/
theorem storageWriteLoop_leading (points : List Point) :
    ∀ {state after : ItemStore} {written : Written}, storageWriteLoop points state = .ok written after →
      written.stored <+: points := by
  induction points with
  | nil =>
      intro state after written run
      cases run
      exact List.prefix_rfl
  | cons point rest ih =>
      intro state after written run
      obtain ⟨code, middle, _, run⟩ := EStateM.of_bind_ok run
      cases code with
      | none =>
          obtain ⟨later, _, more, ended⟩ := EStateM.of_bind_ok run
          cases ended
          exact List.prefix_cons_inj point |>.mpr (ih more)
      | some err =>
          cases run
          exact List.nil_prefix

/-- The loop stores the points up to the first one that is refused. -/
theorem storageWriteLoop_stored (points : List Point) :
    ∀ {blocks : List Block} {state : ItemStore} {series : Series}, ItemAt s blocks state series →
      (storageWriteLoop points).Ends state
        (fun written after => (∀ point ∈ written.stored, 0 < point.1.toInt) → WriteRun s series points written ∧
          ∃ later, ItemStep s blocks later state after (series.addAll s written.stored))
        (fun failure _ => (∀ point ∈ points, 0 < point.1.toInt) → ∃ site front point back, failure = .abort site ∧
          points = front ++ point :: back ∧ WriteStops s (series.addAll s front) point site) := by
  induction points with
  | nil =>
      intro blocks state series holds
      exact EStateM.ends_of_ok rfl fun _ => ⟨.nil series, blocks, holds.step⟩
  | cons point rest ih =>
      intro blocks state series holds
      unfold storageWriteLoop
      have called : (resultCode (storageWritePoint point)).Ends state
          (fun code after =>
            match code with
            | some err => series.Refuses s point err ∧ ItemStep s blocks blocks state after series
            | none => 0 < point.1.toInt → series.Takes s point ∧
                ∃ later, ItemStep s blocks later state after (series.add s point))
          (fun failure _ => ∃ site, failure = .abort site ∧ WriteStops s series point site) := by
        apply resultCode_ends
        apply (storageWritePoint_ends holds point).mono (fun _ _ done => done)
        intro failure after stopped
        cases failure with
        | code err => exact stopped
        | abort site => exact ⟨site, rfl, stopped⟩
      apply EStateM.Ends.bind (called.mono (fun _ _ done => done) ?_)
      · intro code after outcome
        cases code with
        | none =>
            by_cases late : 0 < point.1.toInt
            · obtain ⟨takes, middle, step⟩ := outcome late
              apply EStateM.Ends.bind ((ih step.toItemAt).mono (fun _ _ done => done) ?_)
              · intro written final done
                refine EStateM.ends_of_ok rfl fun positive => ?_
                obtain ⟨run, later, more⟩ := done (List.forall_mem_cons.mp positive).2
                exact ⟨.take takes run, later, step.trans more⟩
              · intro failure final stopped positive
                obtain ⟨site, front, other, back, abort, split, stops⟩ := stopped (List.forall_mem_cons.mp positive).2
                exact ⟨site, point :: front, other, back, abort, by rw [split]; rfl, stops⟩
            · -- nothing is promised for a point that is not positive
              constructor
              · intro written final run positive
                obtain ⟨later, _, _, ended⟩ := EStateM.of_bind_ok run
                cases ended
                exact absurd (List.forall_mem_cons.mp positive).1 late
              · intro failure final _ positive
                exact absurd (List.forall_mem_cons.mp positive).1 late
        | some err =>
            obtain ⟨refuses, step⟩ := outcome
            exact EStateM.ends_of_ok rfl fun _ => ⟨.refuse refuses, blocks, step⟩
      · intro failure after stopped _
        obtain ⟨site, abort, stops⟩ := stopped
        exact ⟨site, [], point, rest, abort, rfl, stops⟩

theorem storageWriteLoop_ends (points : List Point) (holds : ItemAt s blocks state series)
    (positive : ∀ point ∈ points, 0 < point.1.toInt) :
    (storageWriteLoop points).Ends state
      (fun written after => WriteRun s series points written ∧
        ∃ later, ItemStep s blocks later state after (series.addAll s written.stored))
      (fun failure _ => ∃ site front point back, failure = .abort site ∧
        points = front ++ point :: back ∧ WriteStops s (series.addAll s front) point site) := by
  have ends := storageWriteLoop_stored points holds
  constructor
  · intro written after run
    exact ends.of_ok run fun point member => positive point ((storageWriteLoop_leading points run).subset member)
  · exact fun run => ends.of_error run positive

end

end Menoetius
