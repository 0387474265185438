import Menoetius.StorageHistory

/-
This file shows that a read returns the points that were accepted, and when these are in the order of time.
-/

namespace Menoetius

/-- The points of a key for which `tsc_add` returned `ERR_OK`. -/
def acceptedPoints (events : List Event) (key : List UInt8) : List Point :=
  events.flatMap fun event =>
    match event.op with
    | .write name _ => if name = key then event.written.stored else []
    | _ => []

/-- The key has been written to. -/
def WrittenTo (events : List Event) (key : List UInt8) : Prop := ∃ event ∈ events, ∃ points, event.op = .write key points

/-- The file cannot grow, or all internal ids are used. -/
def OutOfRoom (failure : Failure) : Prop := failure = .abort .storageNextInternalId ∨ DiskFull failure

@[simp] theorem acceptedPoints_nil (key : List UInt8) : acceptedPoints [] key = [] := rfl

theorem acceptedPoints_concat (events : List Event) (event : Event) (key : List UInt8) :
    acceptedPoints (events ++ [event]) key = acceptedPoints events key ++ acceptedPoints [event] key := by
  rw [acceptedPoints, List.flatMap_append]
  rfl

theorem acceptedPoints_write (key name : List UInt8) (points : List Point) (written : Written) :
    acceptedPoints [⟨.write name points, written⟩] key = if name = key then written.stored else [] := by
  simp [acceptedPoints]

theorem writtenTo_concat (events : List Event) (event : Event) (key : List UInt8) :
    WrittenTo (events ++ [event]) key ↔ WrittenTo events key ∨ ∃ points, event.op = .write key points := by
  unfold WrittenTo
  simp only [List.mem_append, List.mem_singleton, or_and_right, exists_or, exists_eq_left]

/-- A write stores the first points of the call. -/
theorem WriteRun.stored_prefix {s : Nat} {series : Series} {points : List Point} {written : Written}
    (run : WriteRun s series points written) : written.stored <+: points := by
  induction run with
  | nil series => exact List.prefix_rfl
  | take takes more ih => exact List.cons_prefix_cons.mpr ⟨rfl, ih⟩
  | refuse refuses => exact List.nil_prefix

/-- The first point of a key is always stored in a block of at least 28 bytes. -/
theorem WriteRun.first_stored {s : Nat} {series : Series} {points : List Point} {written : Written}
    (run : WriteRun s series points written) (large : 28 ≤ s) (fresh : series.stream = []) (some : points ≠ []) :
    written.stored ≠ [] := by
  cases run with
  | nil series => exact absurd rfl some
  | take takes more => exact List.cons_ne_nil _ _
  | refuse refuses =>
      rw [Series.Refuses, if_neg (Series.not_full_of_empty large fresh), fresh, admission_first s large] at refuses
      cases refuses

theorem Model.write_self (s : Nat) (model : Model) (key : List UInt8) (stored : List Point) :
    model.write s key stored key = some ((model.seriesOf key).addAll s stored) :=
  Function.update_self _ _ _

theorem Model.write_of_ne (s : Nat) (model : Model) {key name : List UInt8} (stored : List Point)
    (other : name ≠ key) : model.write s key stored name = model name :=
  Function.update_of_ne other _ _

/-- A call of `storage_write` with at least one point, or of `storage_sync`. -/
def StorageOp.WritesOrSyncs : StorageOp → Prop
  | .write key points => (ValidKey key ∧ ∀ point ∈ points, 0 < point.1.toInt) ∧ points ≠ []
  | .sync => True
  | _ => False

instance : (op : StorageOp) → Decidable op.WritesOrSyncs
  | .write key points =>
      inferInstanceAs (Decidable ((ValidKey key ∧ ∀ point ∈ points, 0 < point.1.toInt) ∧ points ≠ []))
  | .sync => .isTrue trivial
  | .clean _ => .isFalse id
  | .restart _ => .isFalse id

theorem StorageOp.WritesOrSyncs.valid {op : StorageOp} (meets : op.WritesOrSyncs) : op.Valid := by
  cases op with
  | write key points => exact meets.1
  | _ => exact trivial

/-- Every key that has been written to has its accepted points, and one of them in memory. -/
structure Faithful (model : Model) (events : List Event) : Prop where
  known : ∀ key, WrittenTo events key → ∃ series, model key = some series
  series : ∀ key series, model key = some series →
    WrittenTo events key ∧ series.points = acceptedPoints events key ∧ series.stream ≠ []

theorem Faithful.seriesOf {model : Model} {events : List Event} (faithful : Faithful model events) (key : List UInt8) :
    (model.seriesOf key).points = acceptedPoints events key ∨ model key = none := by
  unfold Model.seriesOf
  cases found : model key with
  | none => exact Or.inr rfl
  | some series => exact Or.inl (faithful.series key series found).2.1

/-- The points of a key that has not been written to. -/
theorem acceptedPoints_of_not_written {events : List Event} {key : List UInt8} (never : ¬ WrittenTo events key) :
    acceptedPoints events key = [] := by
  rw [acceptedPoints, List.flatMap_eq_nil_iff]
  intro event member
  split
  · rename_i name points op
    rw [if_neg]
    rintro rfl
    exact never ⟨event, member, points, op⟩
  · rfl

theorem History.faithful {s : Nat} {retentionSeconds : Int} {events : List Event} (large : 28 ≤ s)
    (history : History s retentionSeconds (fun _ op => op.WritesOrSyncs) events) :
    Faithful (modelOf s retentionSeconds events) events := by
  induction history with
  | nil =>
      constructor
      · rintro key ⟨event, member, _⟩
        cases member
      · intro key series found
        cases found
  | @step events earlier event allowed explained ih =>
      obtain ⟨op, written⟩ := event
      rw [modelOf_concat]
      generalize modelOf s retentionSeconds events = model at explained ih ⊢
      cases op with
      | write name points =>
          have run : WriteRun s (model.seriesOf name) points written := explained
          have before : (model.seriesOf name).points = acceptedPoints events name := by
            rcases ih.seriesOf name with same | none
            · exact same
            · have never : ¬ WrittenTo events name := by
                intro already
                obtain ⟨series, found⟩ := ih.known name already
                rw [none] at found
                cases found
              rw [acceptedPoints_of_not_written never, Model.seriesOf, none]
              rfl
          have streams : (model.seriesOf name).stream ≠ [] ∨ written.stored ≠ [] := by
            cases found : model name with
            | some series =>
                rw [Model.seriesOf, found]
                exact Or.inl (ih.series name series found).2.2
            | none =>
                refine Or.inr (run.first_stored large ?_ allowed.2)
                rw [Model.seriesOf, found]
                rfl
          constructor
          · intro key wrote
            by_cases here : key = name
            · exact ⟨_, by rw [here]; exact Model.write_self s model name written.stored⟩
            · rcases (writtenTo_concat _ _ _).mp wrote with old | ⟨_, same⟩
              · obtain ⟨series, found⟩ := ih.known key old
                exact ⟨series, by rw [← found]; exact Model.write_of_ne s model written.stored here⟩
              · cases same
                exact absurd rfl here
          · intro key series found
            rw [writtenTo_concat, acceptedPoints_concat, acceptedPoints_write]
            by_cases here : key = name
            · subst here
              have value : some ((model.seriesOf key).addAll s written.stored) = some series :=
                (Model.write_self s model key written.stored).symm.trans found
              rw [← Option.some.inj value, if_pos rfl, Series.points_addAll, before]
              exact ⟨Or.inr ⟨points, rfl⟩, rfl, Series.stream_addAll s _ _ streams⟩
            · have old : model key = some series := (Model.write_of_ne s model written.stored here).symm.trans found
              obtain ⟨wrote, same, stream⟩ := ih.series key series old
              rw [if_neg (Ne.symm here), List.append_nil]
              exact ⟨Or.inl wrote, same, stream⟩
      | sync =>
          have same : ∀ key, acceptedPoints (events ++ [⟨.sync, written⟩]) key = acceptedPoints events key := by
            intro key
            rw [acceptedPoints_concat]
            exact List.append_nil _
          have wrote : ∀ key, WrittenTo (events ++ [⟨.sync, written⟩]) key ↔ WrittenTo events key := by
            intro key
            rw [writtenTo_concat]
            simp
          by_cases done : written.err = none
          · have changed : model.after s retentionSeconds ⟨.sync, written⟩ = model.sync := if_pos done
            rw [changed]
            constructor
            · intro key written
              obtain ⟨series, found⟩ := ih.known key ((wrote key).mp written)
              exact ⟨series.sync, by rw [Model.sync, found]; rfl⟩
            · intro key series found
              obtain ⟨old, before, rfl⟩ := Option.map_eq_some_iff.mp found
              obtain ⟨written, points, stream⟩ := ih.series key old before
              exact ⟨(wrote key).mpr written, by rw [same]; exact points, stream⟩
          · have changed : model.after s retentionSeconds ⟨.sync, written⟩ = model := if_neg done
            rw [changed]
            exact ⟨fun key written => ih.known key ((wrote key).mp written),
              fun key series found => by
                obtain ⟨written, points, stream⟩ := ih.series key series found
                exact ⟨(wrote key).mpr written, by rw [same]; exact points, stream⟩⟩
      | clean now => exact allowed.elim
      | restart memory => exact allowed.elim

/-- A write into blocks of at least 28 bytes stops for lack of room only. -/
theorem StorageWriteStops.outOfRoom {s : Nat} {series : Series} {points : List Point} {failure : Failure}
    (large : 28 ≤ s) (small : s + 38 ≤ 2 ^ 20) (stops : StorageWriteStops s series points failure) :
    OutOfRoom failure := by
  rcases stops with (last | ⟨_, bits⟩ | full) | ⟨site, front, point, back, rfl, _, stop⟩
  · exact Or.inl last
  · unfold maxNumValidBits at bits
    omega
  · exact Or.inr full
  · rcases stop with ⟨_, full, none⟩ | ⟨_, _, refused⟩ | full
    · exact absurd full (Series.not_full_of_empty large none)
    · exact absurd (admission_first s large point) refused
    · exact Or.inr full

theorem SyncStops.outOfRoom {model : Model} {site : Abort} (stops : SyncStops model site)
    (streams : ∀ key series, model key = some series → series.stream ≠ []) : OutOfRoom (.abort site) := by
  rcases stops with ⟨_, key, series, found, none⟩ | full
  · exact absurd none (streams key series found)
  · exact Or.inr full

/-- A read returns the accepted points of the key, in their order, after every run of writes and syncs. No call
stops the process, except for lack of room. -/
theorem storageRun_faithful {s : Nat} {retentionSeconds : Int} {events : List Event} {store : Storage}
    (large : 28 ≤ s) (small : s + 38 ≤ 2 ^ 20)
    (run : StorageRun retentionSeconds s (fun _ _ op => op.WritesOrSyncs) events store) :
    (∀ key maxNumPts, WrittenTo events key → (acceptedPoints events key).length ≤ maxNumPts →
      ∃ after, storageGet key maxNumPts store = .ok (acceptedPoints events key) after) ∧
    (∀ key maxNumPts, ¬ WrittenTo events key →
      storageGet key maxNumPts store = .error (.code .lookupFailed) store) ∧
    ∀ op : StorageOp, op.WritesOrSyncs → op.run.Ends store (fun _ _ => True) fun failure _ => OutOfRoom failure := by
  have more : 4 < s := by omega
  obtain ⟨size, _, history, names, later, models⟩ := run.models more (fun _ _ meets => meets.valid)
    fun _ _ _ meets => meets.elim
  have faithful := history.faithful large
  subst size
  refine ⟨?_, ?_, ?_⟩
  · intro key maxNumPts written few
    obtain ⟨series, found⟩ := faithful.known key written
    have points := (faithful.series key series found).2.1
    rw [← points] at few ⊢
    obtain ⟨pos, read⟩ := storageGet_run models small found maxNumPts few
    exact ⟨_, read⟩
  · intro key maxNumPts never
    refine storageGet_absent models ?_ maxNumPts
    cases found : modelOf store.initialTscBufSize retentionSeconds events key with
    | none => rfl
    | some series => exact absurd (faithful.series key series found).1 never
  · intro op meets
    apply (op.run_models models more meets.valid ?_).mono (fun _ _ _ => trivial)
    · intro failure after failed
      cases op with
      | write key points => exact StorageWriteStops.outOfRoom large small failed
      | sync =>
          obtain ⟨site, rfl, stops⟩ := failed
          exact stops.outOfRoom fun key series found => (faithful.series key series found).2.2
      | clean now => exact meets.elim
      | restart memory => exact meets.elim
    · rintro memory rfl
      exact meets.elim

/-- A complete block, a copied block and a block in memory of two keys. -/
theorem storageRun_faithful_blocks :
    ∃ events store after, StorageRun 10 28 (fun _ _ op => op.WritesOrSyncs) events store ∧
      acceptedPoints events [97] = [(3#64, 7#64), (5#64, 7#64), (9#64, 8#64)] ∧
      storageGet [97] 3 store = .ok [(3#64, 7#64), (5#64, 7#64), (9#64, 8#64)] after := by
  have passed : (initAndRun 10 28 [.write [97] [(3#64, 7#64), (5#64, 7#64)], .sync, .write [98] [(4#64, 1#64)],
      .write [97] [(9#64, 8#64)]] newStorage).passes (fun results _ => results.map (·.stored) =
        [[(3#64, 7#64), (5#64, 7#64)], [], [(4#64, 1#64)], [(9#64, 8#64)]]) = true := by
    decide +kernel
  obtain ⟨results, store, run, stored⟩ := EStateM.Result.of_passes passed
  have meets : ∀ op ∈ [StorageOp.write [97] [(3#64, 7#64), (5#64, 7#64)], .sync, .write [98] [(4#64, 1#64)],
      .write [97] [(9#64, 8#64)]], op.WritesOrSyncs := by
    decide
  have reached := @StorageRun.of_init 10 28 (fun _ _ op => op.WritesOrSyncs) _ _ _
    (fun op member _ _ => meets op member) run
  obtain ⟨first, second, third, fourth, rfl⟩ : ∃ first second third fourth,
      results = [first, second, third, fourth] := by
    have length := congrArg List.length (of_decide_eq_true stored)
    simpa [List.length_eq_four] using length
  have points : acceptedPoints (List.zipWith Event.mk [StorageOp.write [97] [(3#64, 7#64), (5#64, 7#64)], .sync,
      .write [98] [(4#64, 1#64)], .write [97] [(9#64, 8#64)]] [first, second, third, fourth]) [97] =
        [(3#64, 7#64), (5#64, 7#64), (9#64, 8#64)] := by
    simp only [List.map_cons, List.map_nil, decide_eq_true_eq, List.cons.injEq] at stored
    simp [acceptedPoints, stored]
  obtain ⟨after, read⟩ := (storageRun_faithful (by decide) (by decide) reached).1 [97] 3
    ⟨_, List.mem_cons_self, _, rfl⟩ (by rw [points]; decide)
  rw [points] at read
  exact ⟨_, store, after, reached, points, read⟩

end Menoetius
