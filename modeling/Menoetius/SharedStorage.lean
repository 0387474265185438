import Menoetius.SharedCalls

/-
This file models a storage that several threads use. They take turns at its lock, and every call is one turn.
-/

namespace Menoetius
open EStateM

/-- A call of another connection, of the cleaner, or of a sync. -/
inductive OtherCall where
  | write (key : List UInt8) (point : Point)
  | get (key : List UInt8) (maxNumPts : Nat)
  | sync
  | clean (now : Int) (key : List UInt8)
  deriving DecidableEq

def OtherCall.Valid : OtherCall → Prop
  | .write key point => ValidKey key ∧ 0 < point.1.toInt
  | _ => True

/-- A storage with the calls that have had their turns, and with the calls that will have theirs while a connection waits
for each of its next ones. -/
structure Shared where
  store : TheStorage
  log : List LogEntry
  others : List (List OtherCall)

abbrev SharedM := EStateM Failure Shared

namespace Shared

def onStore {α : Type} (action : TheStorageM α) : SharedM α := fun shared =>
  match action shared.store with
  | .ok value store => .ok value { shared with store }
  | .error failure store => .error failure { shared with store }

/-- A call that returns is recorded. -/
def recorded {α : Type} (action : TheStorageM α) (entry : α → LogEntry) : SharedM α := do
  let value ← onStore action
  modify fun shared => { shared with log := shared.log ++ [entry value] }
  pure value

section
variable (choose : Indexes → Nat)

def runWrite (own : Bool) (key : List UInt8) (point : Point) : SharedM (Option Err) :=
  recorded (do
      let address ← TheStorage.newAddress choose
      Written.err <$> TheStorage.storageWrite key [point] address) fun err => .write own key point err

def runOther : OtherCall → SharedM Unit
  | .write key point => do
      let _ ← runWrite choose false key point
  | .get key maxNumPts => onStore (ignoreCode (TheStorage.storageGet key maxNumPts))
  | .sync => do
      let _ ← recorded (resultCode TheStorage.storageSync) fun err => .sync err
  | .clean now key => recorded (TheStorage.cleanKey now key) fun _ => .clean now key

def runOthers : List OtherCall → SharedM Unit
  | [] => pure ()
  | call :: rest => do
      runOther choose call
      runOthers rest

/-- A connection waits for its turn. -/
def waitTurn : SharedM Unit := do
  let shared ← get
  match shared.others with
  | [] => pure ()
  | calls :: rest => do
      set { shared with others := rest }
      runOthers choose calls

end

end Shared

/-- The calls of a connection to a storage that it shares. -/
def sharedCalls (choose : Indexes → Nat) (indices : List CString) (retentionSeconds : Int)
    (sha1 : List UInt8 → List UInt8) : StorageCalls Shared where
  storageWrite := fun key point => do
    Shared.waitTurn choose
    Shared.runWrite choose true key point
  storageGet := fun key maxNumPts => do
    Shared.waitTurn choose
    Shared.onStore (TheStorage.storageGet key maxNumPts)
  storageLookup := fun indexNum value matchers numMatchers room offset limit => do
    Shared.waitTurn choose
    Shared.onStore (TheStorage.storageLookup indexNum (CString.at value) matchers numMatchers room offset limit)
  storageLookupWithoutIndex := fun matchers numMatchers room lastInternalId limit => do
    Shared.waitTurn choose
    Shared.onStore (TheStorage.storageLookupWithoutIndex matchers numMatchers room lastInternalId limit)
  indices := indices.map CString.bytes
  retentionSeconds := retentionSeconds
  sha1 := sha1

/-- The times of all writes are positive. -/
def PositiveLog (log : List LogEntry) : Prop :=
  ∀ own key point err, LogEntry.write own key point err ∈ log → 0 < point.1.toInt

def LogEntry.ownWrite : LogEntry → List (List UInt8 × Point)
  | .write own key point _ => if own then [(key, point)] else []
  | _ => []

/-- The writes of the connection, in their order. -/
def ownWrites (log : List LogEntry) : List (List UInt8 × Point) := log.flatMap LogEntry.ownWrite

theorem ownWrites_append (log more : List LogEntry) : ownWrites (log ++ more) = ownWrites log ++ ownWrites more :=
  List.flatMap_append

theorem PositiveLog.before {log later : List LogEntry} (grown : log <+: later) (positive : PositiveLog later) :
    PositiveLog log :=
  fun own key point err mem => positive own key point err (grown.subset mem)

theorem positiveLog_concat {log : List LogEntry} (positive : PositiveLog log) {entry : LogEntry}
    (last : ∀ own key point err, entry = .write own key point err → 0 < point.1.toInt) : PositiveLog (log ++ [entry]) := by
  intro own key point err mem
  rcases List.mem_append.mp mem with old | new
  · exact positive own key point err old
  · exact last own key point err (List.mem_singleton.mp new).symm

/-- The buffers of the timeseries are neither too small nor too large, and `malloc` finds memory. -/
structure Setting (s : Nat) (choose : Indexes → Nat) : Prop where
  large : 28 ≤ s
  small : s + 38 ≤ 2 ^ 20
  mallocs : Mallocs choose

namespace Shared

/-- The calls in the log explain the timeseries. -/
structure Sound (retentionSeconds : Int) (s : Nat) (shared : Shared) : Prop where
  others : ∀ calls ∈ shared.others, ∀ call ∈ calls, call.Valid
  order : shared.store.InOrder
  shows : PositiveLog shared.log →
    ∃ model, shared.store.Shows retentionSeconds s model ∧ model.Has retentionSeconds shared.log

/-- These writes of the connection have had their turns, among the calls of others. -/
structure Grows (retentionSeconds : Int) (s : Nat) (written : List (List UInt8 × Point)) (shared after : Shared) : Prop where
  sound : after.Sound retentionSeconds s
  log : shared.log <+: after.log
  own : ownWrites after.log = ownWrites shared.log ++ written
  positive : PositiveLog shared.log → (∀ write ∈ written, 0 < write.2.1.toInt) → PositiveLog after.log

section
variable {retentionSeconds : Int} {s : Nat} {shared middle after : Shared} {written more : List (List UInt8 × Point)}

theorem Grows.refl (sound : shared.Sound retentionSeconds s) : shared.Grows retentionSeconds s [] shared :=
  ⟨sound, List.prefix_rfl, (List.append_nil _).symm, fun positive _ => positive⟩

theorem Grows.trans (first : shared.Grows retentionSeconds s written middle)
    (second : middle.Grows retentionSeconds s more after) : shared.Grows retentionSeconds s (written ++ more) after := by
  refine ⟨second.sound, first.log.trans second.log, ?_, fun positive times => ?_⟩
  · rw [second.own, first.own, List.append_assoc]
  · obtain ⟨old, new⟩ := List.forall_mem_append.mp times
    exact second.positive (first.positive positive old) new

/-- A call that returns has had its turns. A call that stops has found no room, if all times are positive. -/
def Turns {α : Type} (retentionSeconds : Int) (s : Nat) (written : List (List UInt8 × Point)) (action : SharedM α) : Prop :=
  ∀ shared : Shared, shared.Sound retentionSeconds s → action.Ends shared
    (fun _ after => shared.Grows retentionSeconds s written after) fun failure _ => ¬ failure.IsCode ∧
      (PositiveLog shared.log → (∀ write ∈ written, 0 < write.2.1.toInt) → OutOfRoom failure)

theorem turns_pure {α : Type} (value : α) : Turns retentionSeconds s [] (pure value : SharedM α) :=
  fun _ sound => ends_of_ok rfl (.refl sound)

theorem Turns.bind {α β : Type} {first : SharedM α} {next : α → SharedM β} (start : Turns retentionSeconds s written first)
    (rest : ∀ value, Turns retentionSeconds s more (next value)) :
    Turns retentionSeconds s (written ++ more) (first >>= next) := by
  intro shared sound
  refine ((start shared sound).mono (fun _ _ grows => grows) ?_).bind fun value middle grows => ?_
  · rintro failure _ ⟨stops, room⟩
    exact ⟨stops, fun positive times => room positive (List.forall_mem_append.mp times).1⟩
  · refine (rest value middle grows.sound).mono (fun _ _ later => grows.trans later) ?_
    rintro failure _ ⟨stops, room⟩
    refine ⟨stops, fun positive times => ?_⟩
    obtain ⟨old, new⟩ := List.forall_mem_append.mp times
    exact room (grows.positive positive old) new

theorem onStore_ends {α : Type} {action : TheStorageM α} {post : α → Shared → Prop} {stop : Failure → Shared → Prop}
    (ends : action.Ends shared.store (fun value store => post value { shared with store }) fun failure store =>
      stop failure { shared with store }) : (onStore action).Ends shared post stop := by
  cases run : action shared.store with
  | ok value store =>
      have done : onStore action shared = .ok value { shared with store } := by simp only [onStore, run]
      exact ends_of_ok done (ends.of_ok run)
  | error failure store =>
      have failed : onStore action shared = .error failure { shared with store } := by simp only [onStore, run]
      exact ends_of_error failed (ends.of_error run)

/-- A call that is recorded has had its turn. -/
theorem Sound.record (sound : shared.Sound retentionSeconds s) {store : TheStorage} (entry : LogEntry)
    (order : store.InOrder)
    (shows : ∀ model, PositiveLog (shared.log ++ [entry]) → shared.store.Shows retentionSeconds s model →
      model.Has retentionSeconds shared.log →
        ∃ changed, store.Shows retentionSeconds s changed ∧ changed.Has retentionSeconds (shared.log ++ [entry]))
    (times : ∀ own key point err, entry = .write own key point err → own = true ∨ 0 < point.1.toInt) :
    shared.Grows retentionSeconds s entry.ownWrite { shared with store, log := shared.log ++ [entry] } where
  sound :=
    { others := sound.others
      order
      shows := fun positive => by
        obtain ⟨model, shown, has⟩ := sound.shows (positive.before (List.prefix_append _ _))
        exact shows model positive shown has }
  log := List.prefix_append _ _
  own := by
    rw [ownWrites_append]
    exact congrArg (ownWrites shared.log ++ ·) (List.append_nil _)
  positive := by
    intro positive own
    refine positiveLog_concat positive ?_
    rintro written key point err rfl
    rcases times written key point err rfl with rfl | later
    · exact own (key, point) List.mem_cons_self
    · exact later

/-- A call is recorded after it has returned. -/
theorem recorded_ends {α : Type} {action : TheStorageM α} {entry : α → LogEntry} {written : List (List UInt8 × Point)}
    {stop : Failure → Shared → Prop}
    (ends : action.Ends shared.store
      (fun value store => shared.Grows retentionSeconds s written { shared with store, log := shared.log ++ [entry value] })
      fun failure store => stop failure { shared with store }) :
    (recorded action entry).Ends shared (fun _ after => shared.Grows retentionSeconds s written after) stop := by
  have first : (onStore action).Ends shared (fun value after =>
      shared.Grows retentionSeconds s written { after with log := after.log ++ [entry value] }) stop := onStore_ends ends
  refine first.bind fun value after grows => ends_bind_ok (modify_apply _ _) ?_
  exact ends_of_ok (pure_apply _ _) grows

end

section
variable {retentionSeconds : Int} {s : Nat} {choose : Indexes → Nat} {key : List UInt8}

theorem runWrite_turns (setting : Setting s choose) (valid : ValidKey key) (point : Point) {own : Bool}
    (time : own = true ∨ 0 < point.1.toInt) :
    Turns retentionSeconds s (if own then [(key, point)] else []) (runWrite choose own key point) := by
  intro shared sound
  have work := @theStorageWrite_ends shared.store retentionSeconds s key setting.large setting.small sound.order choose
    setting.mallocs valid point
  refine recorded_ends (work.mono ?_ ?_)
  · rintro err store ⟨order, shown⟩
    refine sound.record (.write own key point err) order ?_ ?_
    · intro model positive shows has
      have there := List.mem_append_right shared.log (List.mem_singleton_self (LogEntry.write own key point err))
      obtain ⟨written, run, rfl, shows⟩ := shown model shows (positive own key point err there)
      exact ⟨_, shows, has.write setting.large run own⟩
    · rintro _ _ _ _ same
      cases same
      exact time
  · rintro failure store ⟨stops, room⟩
    refine ⟨stops, fun positive times => ?_⟩
    obtain ⟨model, shows, _⟩ := sound.shows positive
    refine room model shows ?_
    rcases time with rfl | later
    · exact times (key, point) List.mem_cons_self
    · exact later

/-- A read changes no timeseries. -/
theorem Sound.withStore {shared : Shared} (sound : shared.Sound retentionSeconds s) {store : TheStorage} (order : store.InOrder)
    (shows : ∀ model, shared.store.Shows retentionSeconds s model → store.Shows retentionSeconds s model) :
    shared.Grows retentionSeconds s [] { shared with store } where
  sound := ⟨sound.others, order, fun positive => by
    obtain ⟨model, shown, has⟩ := sound.shows positive
    exact ⟨model, shows model shown, has⟩⟩
  log := List.prefix_rfl
  own := (List.append_nil _).symm
  positive := fun positive _ => positive

/-- The process goes on after a code. -/
theorem ignoreCode_ends {α : Type} {action : TheStorageM α} {store : TheStorage} {post : TheStorage → Prop}
    {stop : Failure → TheStorage → Prop} (ends : action.Ends store (fun _ after => post after) fun failure after =>
      post after ∧ (¬ failure.IsCode → stop failure after)) :
    (ignoreCode action).Ends store (fun _ after => post after) stop := by
  cases run : action store with
  | ok value after =>
      have done : ignoreCode action store = .ok () after := by rw [ignoreCode, run]
      exact ends_of_ok done (ends.of_ok run)
  | error failure after =>
      cases failure with
      | code err =>
          have done : ignoreCode action store = .ok () after := by rw [ignoreCode, run]
          exact ends_of_ok done (ends.of_error run).1
      | abort site =>
          have failed : ignoreCode action store = .error (.abort site) after := by rw [ignoreCode, run]
          exact ends_of_error failed ((ends.of_error run).2 id)

theorem runOther_turns (setting : Setting s choose) {call : OtherCall} (valid : call.Valid) :
    Turns retentionSeconds s [] (runOther choose call) := by
  cases call with
  | write key point =>
      exact (runWrite_turns setting valid.1 point (.inr valid.2)).bind fun _ => turns_pure ()
  | get key maxNumPts =>
      intro shared sound
      refine onStore_ends (ignoreCode_ends
        ((@theStorageGet_ends shared.store retentionSeconds s setting.small sound.order key maxNumPts).mono ?_ ?_))
      · rintro points store ⟨order, shown⟩
        exact sound.withStore order fun model shows => (shown model shows).1
      · rintro failure store ⟨order, shown⟩
        refine ⟨sound.withStore order fun model shows => (shown model shows).1, fun stops => ⟨stops, fun positive _ => ?_⟩⟩
        obtain ⟨model, shows, _⟩ := sound.shows positive
        obtain ⟨_, ⟨rfl, _⟩ | ⟨rfl, _⟩⟩ := shown model shows
        · exact absurd trivial stops
        · exact absurd trivial stops
  | sync =>
      suffices synced : Turns retentionSeconds s [] (recorded (resultCode TheStorage.storageSync) fun err => .sync err) from
        synced.bind fun _ => turns_pure ()
      intro shared sound
      refine recorded_ends ((@theStorageSync_ends shared.store retentionSeconds s sound.order).mono ?_ ?_)
      · rintro err store ⟨order, shown⟩
        refine sound.record (.sync err) order ?_ fun _ _ _ _ same => by cases same
        exact fun model _ shows has => ⟨_, shown model shows, has.sync err⟩
      · rintro failure store ⟨stops, room⟩
        refine ⟨stops, fun positive _ => ?_⟩
        obtain ⟨model, shows, has⟩ := sound.shows positive
        exact room model shows fun key series found => (has.steady key series found).2
  | clean now key =>
      intro shared sound
      refine recorded_ends ((@theStorageCleanKey_ends shared.store retentionSeconds s sound.order now key).mono ?_ ?_)
      · rintro _ store ⟨order, shown⟩
        refine sound.record (.clean now key) order ?_ fun _ _ _ _ same => by cases same
        exact fun model _ shows has => ⟨_, shown model shows, has.clean now key⟩
      · rintro failure store ⟨stops, never⟩
        refine ⟨stops, fun positive _ => ?_⟩
        obtain ⟨model, shows, _⟩ := sound.shows positive
        exact absurd shows (never model)

theorem runOthers_turns (setting : Setting s choose) (calls : List OtherCall) (valid : ∀ call ∈ calls, call.Valid) :
    Turns retentionSeconds s [] (runOthers choose calls) := by
  induction calls with
  | nil => exact turns_pure ()
  | cons call rest ih =>
      obtain ⟨first, others⟩ := List.forall_mem_cons.mp valid
      exact (runOther_turns setting first).bind fun _ => ih others

theorem waitTurn_turns (setting : Setting s choose) : Turns retentionSeconds s [] (waitTurn choose) := by
  intro shared sound
  refine ends_bind_ok (get_apply shared) ?_
  cases plan : shared.others with
  | nil => exact ends_of_ok (pure_apply _ _) (.refl sound)
  | cons calls rest =>
      have valid := sound.others
      rw [plan] at valid
      obtain ⟨first, others⟩ := List.forall_mem_cons.mp valid
      have still : Sound retentionSeconds s { shared with others := rest } := ⟨others, sound.order, sound.shows⟩
      refine ends_bind_ok (set_apply _ _) ((runOthers_turns setting calls first _ still).mono ?_ fun _ _ stops => stops)
      exact fun _ after grows => ⟨grows.sound, grows.log, grows.own, grows.positive⟩

/-- A write of the connection, behind its turn. -/
theorem sharedWrite_turns (setting : Setting s choose) {indices : List CString} {sha1 : List UInt8 → List UInt8}
    (valid : ValidKey key) (point : Point) :
    Turns retentionSeconds s [(key, point)]
      ((sharedCalls choose indices retentionSeconds sha1).storageWrite key point) :=
  (waitTurn_turns setting).bind fun _ => runWrite_turns setting valid point (.inl rfl)

/-- If the points of the key were accepted in the order of time, these are the ones that no clean has dropped. -/
def Holds (retentionSeconds : Int) (key : List UInt8) (points : List Point) (shared : Shared) : Prop :=
  Increasing (acceptedIn shared.log key) → StillHas retentionSeconds shared.log key points

/-- The calls since a moment. -/
def Since (retentionSeconds : Int) (s : Nat) (base : List LogEntry) (shared : Shared) : Prop :=
  base <+: shared.log ∧ shared.Sound retentionSeconds s

theorem Grows.since {shared after : Shared} {base : List LogEntry} {written : List (List UInt8 × Point)}
    (grows : shared.Grows retentionSeconds s written after) (since : shared.Since retentionSeconds s base) :
    after.Since retentionSeconds s base :=
  ⟨since.1.trans grows.log, grows.sound⟩

theorem Turns.preserves {α : Type} {action : SharedM α} {written : List (List UInt8 × Point)}
    (turns : Turns retentionSeconds s written action) (base : List LogEntry) :
    action.Relates (Preserves (Since retentionSeconds s base)) Failure.IsCode := fun shared =>
  ⟨fun run since => ((turns shared since.2).of_ok run).since since,
    fun run code since => absurd code ((turns shared since.2).of_error run).1⟩

/-- A call that only reads is no turn of its own. -/
theorem reads_preserves {α : Type} {action : TheStorageM α} (base : List LogEntry)
    (reads : ∀ store : TheStorage, store.InOrder → action.Ends store
      (fun _ after => after.InOrder ∧ ∀ model, store.Shows retentionSeconds s model → after.Shows retentionSeconds s model)
      fun _ after => after.InOrder ∧ ∀ model, store.Shows retentionSeconds s model →
        after.Shows retentionSeconds s model) :
    (onStore action).Relates (Preserves (Since retentionSeconds s base)) Failure.IsCode := by
  intro shared
  constructor
  · intro value after run since
    have ends : (onStore action).Ends shared (fun _ after => Grows retentionSeconds s [] shared after) fun _ _ => True :=
      onStore_ends ((reads shared.store since.2.order).mono (fun _ _ kept => since.2.withStore kept.1 kept.2)
        fun _ _ _ => trivial)
    exact (ends.of_ok run).since since
  · intro failure after run _ since
    have ends : (onStore action).Ends shared (fun _ _ => True) fun _ after => Grows retentionSeconds s [] shared after :=
      onStore_ends ((reads shared.store since.2.order).mono (fun _ _ _ => trivial)
        fun _ _ kept => since.2.withStore kept.1 kept.2)
    exact (ends.of_error run).since since

theorem look_ends {α : Type} (look : TheStorage → Except Failure α) (store : TheStorage) :
    (do let store ← get; ofExcept (look store) : TheStorageM α).Ends store (fun _ after => after = store)
      fun _ after => after = store := by
  refine ends_bind_ok (get_apply store) ?_
  cases look store with
  | ok value => exact ends_of_ok rfl rfl
  | error failure => exact ends_of_error rfl rfl

theorem look_preserves {α : Type} (base : List LogEntry) (look : TheStorage → Except Failure α) :
    (onStore (do let store ← get; ofExcept (look store))).Relates (Preserves (Since retentionSeconds s base))
      Failure.IsCode := by
  refine reads_preserves base fun store order => (look_ends look store).mono ?_ ?_
  · rintro _ _ rfl
    exact ⟨order, fun _ shows => shows⟩
  · rintro _ _ rfl
    exact ⟨order, fun _ shows => shows⟩

theorem onStore_ok {α : Type} {action : TheStorageM α} {shared after : Shared} {value : α}
    (run : onStore action shared = .ok value after) : ∃ store, action shared.store = .ok value store := by
  unfold onStore at run
  split at run
  · rename_i done
    cases run
    exact ⟨_, done⟩
  · cases run

/-- The calls of a connection to a shared storage are those that a session relies on. -/
theorem sharedCalls_hosts (setting : Setting s choose) (indices : List CString) {sha1 : List UInt8 → List UInt8}
    (digest : ∀ text, (sha1 text).length = hashLength) (base : List LogEntry) :
    Hosts (sharedCalls choose indices retentionSeconds sha1) (Since retentionSeconds s base) where
  write := fun key point valid => (sharedWrite_turns setting valid point).preserves base
  get := fun key maxNumPts => ((waitTurn_turns setting).preserves base).bind fun _ => reads_preserves base fun store order =>
    (theStorageGet_ends setting.small order key maxNumPts).mono
      (fun _ _ kept => ⟨kept.1, fun model shows => (kept.2 model shows).1⟩)
      fun _ _ kept => ⟨kept.1, fun model shows => (kept.2 model shows).1⟩
  lookup := fun _ _ _ _ _ _ _ => ((waitTurn_turns setting).preserves base).bind fun _ => look_preserves base _
  scan := fun _ _ _ _ _ => ((waitTurn_turns setting).preserves base).bind fun _ => look_preserves base _
  bounded := fun _ _ _ _ _ run => by
    obtain ⟨_, _, _, run⟩ := of_bind_ok run
    obtain ⟨_, read⟩ := onStore_ok run
    exact theStorageGet_length_le read
  lookupKeys := fun _ _ _ _ _ _ _ _ _ _ since run => by
    obtain ⟨_, middle, turn, run⟩ := of_bind_ok run
    obtain ⟨_, read⟩ := onStore_ok run
    obtain ⟨items, indexed⟩ := ((waitTurn_turns setting _ since.2).of_ok turn).sound.order.indexed
    exact storageLookup_returnsKeys indexed read
  scanKeys := fun _ _ _ _ _ _ _ _ _ since run => by
    obtain ⟨_, middle, turn, run⟩ := of_bind_ok run
    obtain ⟨_, read⟩ := onStore_ok run
    obtain ⟨items, indexed⟩ := ((waitTurn_turns setting _ since.2).of_ok turn).sound.order.indexed
    exact storageLookupWithoutIndex_returnsKeys indexed read
  sha1Length := digest

end

end Shared

end Menoetius
