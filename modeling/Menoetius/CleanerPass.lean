import Menoetius.CleanerBatch
import Menoetius.Lib.Sweep

/-
This file follows `storage_thread_run` from one restart at `list_root` to the next, with calls of the clients between
its batches.
-/

namespace Menoetius
open LinkedList ListSweep

/-- The states of a process: the thread starts without a saved item, and its rounds and the calls of the clients take
the lock in any order. -/
inductive CleanerReached : Cleaner → Prop
  | start {store : TheStorage} {items : List IndexItem} (holds : store.Holds items) : CleanerReached ⟨store, none⟩
  | call {state : Cleaner} (earlier : CleanerReached state) (call : ClientCall) (valid : call.Valid state.store)
      {after : TheStorage} (run : call.run state.store = .ok () after) : CleanerReached ⟨after, state.item⟩
  | round {state : Cleaner} (earlier : CleanerReached state) (now : Int) {trimmed : List IndexItem}
      {saved : Option IndexItem} {after : TheStorage}
      (run : TheStorage.storageThreadRound now state.item state.store = .ok (trimmed, saved) after) :
      CleanerReached ⟨after, saved⟩

/-- What happens from a restart on, with the items that are passed to `storage_trim_and_write_to_disk`. No later round
restarts. The calls and the times of the rounds meet a condition. -/
inductive CleanerPass (allowed : ClientCall → Prop) (clock : Int → Prop) (start : Cleaner) :
    List IndexItem → Cleaner → Prop
  | restart (null : start.item = none) (now : Int) (time : clock now) {trimmed : List IndexItem}
      {saved : Option IndexItem} {after : TheStorage}
      (run : TheStorage.storageThreadRound now start.item start.store = .ok (trimmed, saved) after) :
      CleanerPass allowed clock start trimmed ⟨after, saved⟩
  | call {trimmed : List IndexItem} {state : Cleaner} (earlier : CleanerPass allowed clock start trimmed state)
      (call : ClientCall) (meets : allowed call) (valid : call.Valid state.store) {after : TheStorage}
      (run : call.run state.store = .ok () after) : CleanerPass allowed clock start trimmed ⟨after, state.item⟩
  | round {trimmed : List IndexItem} {state : Cleaner} (earlier : CleanerPass allowed clock start trimmed state)
      (continues : state.item ≠ none) (now : Int) (time : clock now) {more : List IndexItem}
      {saved : Option IndexItem} {after : TheStorage}
      (run : TheStorage.storageThreadRound now state.item state.store = .ok (more, saved) after) :
      CleanerPass allowed clock start (trimmed ++ more) ⟨after, saved⟩

/-- The saved item is the first one of the list that is not passed yet. -/
structure Cleaner.Holds (state : Cleaner) (front ahead : List IndexItem) : Prop where
  store : state.store.Holds (front ++ ahead)
  saved : state.item = ahead.head?

section
variable {state : Cleaner} {front ahead : List IndexItem} {after : TheStorage}

/-- A new item goes behind the saved one. It is not ahead when the end of the list has been reached. -/
theorem Cleaner.Holds.call (holds : state.Holds front ahead) {call : ClientCall} (valid : call.Valid state.store)
    (run : call.run state.store = .ok () after) :
    SameConfig state.store.storage after.storage ∧
      state.store.storage.nextInternalId ≤ after.storage.nextInternalId ∧
      (Cleaner.Holds ⟨after, state.item⟩ front ahead ∨
        ∃ item, item.internalId = state.store.storage.nextInternalId ∧
          (Cleaner.Holds ⟨after, state.item⟩ front (ahead ++ [item]) ∨
            ahead = [] ∧ Cleaner.Holds ⟨after, state.item⟩ (front ++ [item]) [])) := by
  obtain ⟨config, larger, same | ⟨item, numbered, grown⟩⟩ := call.run_grows holds.store valid run
  · exact ⟨config, larger, Or.inl ⟨same, holds.saved⟩⟩
  · refine ⟨config, larger, Or.inr ⟨item, numbered, ?_⟩⟩
    cases ahead with
    | nil => exact Or.inr ⟨rfl, by simpa using grown, holds.saved⟩
    | cons first rest => exact Or.inl ⟨by simpa using grown, holds.saved⟩

/-- A round that restarts is a batch from the first item on. -/
theorem storageThreadRound_restart {store : TheStorage} {items : List IndexItem} (holds : store.Holds items) (now : Int) :
    TheStorage.storageThreadRound now none store =
      TheStorage.storageThreadBatch (now - store.storage.retentionSeconds) TheStorage.maxNumItems items.head? store := by
  rw [TheStorage.storageThreadRound, EStateM.bind_ok (EStateM.get_apply store), if_pos rfl, holds.consistent.list.first]

/-- A round that goes on is a batch from the saved item on. -/
theorem storageThreadRound_continue {store : TheStorage} {item : Option IndexItem} (continues : item ≠ none) (now : Int) :
    TheStorage.storageThreadRound now item store =
      TheStorage.storageThreadBatch (now - store.storage.retentionSeconds) TheStorage.maxNumItems item store := by
  rw [TheStorage.storageThreadRound, EStateM.bind_ok (EStateM.get_apply store), if_neg continues]

theorem BatchHolds.cleaner {store : TheStorage} {saved : Option IndexItem} (batch : BatchHolds store after ahead saved) :
    ∃ kept, Cleaner.Holds ⟨after, saved⟩ kept ahead := by
  obtain ⟨kept, holds⟩ := batch.list
  exact ⟨kept, holds, batch.saved⟩

/-- The saved item is in the list in every state. -/
theorem CleanerReached.holds (reached : CleanerReached state) : ∃ front ahead, state.Holds front ahead := by
  induction reached with
  | @start store items holds => exact ⟨items, [], by simpa using holds, rfl⟩
  | call earlier call valid run ih =>
      obtain ⟨front, ahead, holds⟩ := ih
      obtain ⟨_, _, same | ⟨item, _, grown | ⟨_, grown⟩⟩⟩ := holds.call valid run
      · exact ⟨_, _, same⟩
      · exact ⟨_, _, grown⟩
      · exact ⟨_, _, grown⟩
  | @round state earlier now trimmed saved after run ih =>
      obtain ⟨front, ahead, holds⟩ := ih
      by_cases null : state.item = none
      · rw [null, storageThreadRound_restart holds.store] at run
        obtain ⟨kept, still⟩ := (@storageThreadBatch_holds _ _ _ _ [] _ _ _ holds.store run).2.cleaner
        exact ⟨_, _, still⟩
      · rw [storageThreadRound_continue null, holds.saved] at run
        obtain ⟨kept, still⟩ := (storageThreadBatch_holds _ holds.store run).2.cleaner
        exact ⟨_, _, still⟩

/-- The state of a pass: the items that it has passed, those that are ahead of it, and those that were added since its
start. -/
structure PassHolds (start : Cleaner) (items added trimmed : List IndexItem) (state : Cleaner) (ahead : List IndexItem) :
    Prop where
  cleaner : ∃ front, state.Holds front ahead
  sweep : Sweep items added trimmed ahead
  below : ∀ item ∈ trimmed, item.internalId < state.store.storage.nextInternalId
  config : SameConfig start.store.storage state.store.storage

theorem TheStorage.Holds.nodup {store : TheStorage} {items : List IndexItem} (holds : store.Holds items) : items.Nodup :=
  List.Nodup.of_map _ holds.ids

/-- Every item of the storage has a key, so all of them are in its list. -/
theorem TheStorage.Holds.storageList {store : TheStorage} {items : List IndexItem} (holds : store.Holds items) :
    store.storage.list = items.map IndexItem.internalId := by
  have keyed : ∀ item ∈ store.storage.items, item.key.isSome = true := by
    intro item member
    have there := List.mem_map_of_mem (f := StorageItem.key) member
    rw [holds.storageKeys] at there
    obtain ⟨other, present, same⟩ := List.mem_map.mp there
    obtain ⟨key, _, named, _⟩ := holds.consistent.keyed other present
    rw [← same, named]
    rfl
  rw [Storage.list, List.filter_eq_self.mpr keyed, holds.storageIds]

/-- A batch moves the pass on. -/
theorem PassHolds.batch {start : Cleaner} {items added trimmed more : List IndexItem} {saved : Option IndexItem}
    {t : Int} (pass : PassHolds start items added trimmed state ahead)
    (run : TheStorage.storageThreadBatch t TheStorage.maxNumItems ahead.head? state.store = .ok (more, saved) after) :
    more = ahead.take TheStorage.maxNumItems ∧
      PassHolds start items added (trimmed ++ more) ⟨after, saved⟩ (ahead.drop TheStorage.maxNumItems) := by
  obtain ⟨front, holds⟩ := pass.cleaner
  obtain ⟨rfl, batch⟩ := storageThreadBatch_holds _ holds.store run
  have sweep := pass.sweep
  rw [← List.take_append_drop TheStorage.maxNumItems ahead] at sweep
  refine ⟨rfl, batch.cleaner, sweep.pass, ?_, pass.config.trans batch.config⟩
  intro item member
  dsimp only
  rw [batch.next]
  rcases List.mem_append.mp member with before | now
  · exact pass.below item before
  · exact holds.store.below item (List.mem_append_right _ (List.mem_of_mem_take now))

/-- The items of a pass are those of the list at its start and, when clients write, those added later. -/
theorem CleanerPass.holds {allowed : ClientCall → Prop} {clock : Int → Prop} {start : Cleaner}
    {items trimmed : List IndexItem} (holds : start.store.Holds items)
    (pass : CleanerPass allowed clock start trimmed state) :
    ∃ added ahead, PassHolds start items added trimmed state ahead ∧ ((∀ call, ¬ allowed call) → added = []) := by
  induction pass with
  | restart null now time run =>
      rw [null, storageThreadRound_restart holds] at run
      have begun : PassHolds start items [] [] ⟨start.store, items.head?⟩ items :=
        ⟨⟨[], holds, rfl⟩, .begin holds.nodup, nofun, .refl _⟩
      exact ⟨[], _, (begun.batch run).2, fun _ => rfl⟩
  | @call trimmed state earlier call meets valid after run ih =>
      obtain ⟨added, ahead, pass, _⟩ := ih
      obtain ⟨front, cleaner⟩ := pass.cleaner
      obtain ⟨config, larger, same | ⟨item, numbered, grown⟩⟩ := cleaner.call valid run
      all_goals have config := pass.config.trans config
      all_goals have below : ∀ item ∈ trimmed, item.internalId < after.storage.nextInternalId :=
        fun item member => (pass.below item member).trans_le larger
      · exact ⟨added, ahead, ⟨⟨front, same⟩, pass.sweep, below, config⟩, fun never => absurd meets (never call)⟩
      · have fresh : item ∉ trimmed ++ ahead := by
          intro member
          have smaller : item.internalId < state.store.storage.nextInternalId := by
            rcases List.mem_append.mp member with before | waiting
            · exact pass.below item before
            · exact cleaner.store.below item (List.mem_append_right _ waiting)
          rw [numbered] at smaller
          exact absurd smaller (Nat.lt_irrefl _)
        rcases grown with grown | ⟨rfl, grown⟩
        · exact ⟨_, _, ⟨⟨front, grown⟩, pass.sweep.append fresh, below, config⟩, fun never => absurd meets (never call)⟩
        · exact ⟨added, [], ⟨⟨_, grown⟩, pass.sweep, below, config⟩, fun never => absurd meets (never call)⟩
  | @round trimmed state earlier continues now time more saved after run ih =>
      obtain ⟨added, ahead, pass, alone⟩ := ih
      obtain ⟨front, cleaner⟩ := pass.cleaner
      rw [storageThreadRound_continue continues, cleaner.saved] at run
      exact ⟨added, _, (pass.batch run).2, alone⟩

/-- A pass of the thread alone does the same as the loop of `clean_items`, in both views. -/
theorem CleanerPass.alone {allowed : ClientCall → Prop} {now : Int} {start : Cleaner} {items trimmed : List IndexItem}
    (holds : start.store.Holds items) (never : ∀ call, ¬ allowed call)
    (pass : CleanerPass allowed (· = now) start trimmed state) :
    (∀ rounds, trimmed.length ≤ rounds →
      TheStorage.cleanItemsLoop (now - start.store.storage.retentionSeconds) rounds items.head? start.store =
        TheStorage.cleanItemsLoop (now - start.store.storage.retentionSeconds) (rounds - trimmed.length) state.item
          state.store) ∧
      ∀ rest, cleanLoop (now - start.store.storage.retentionSeconds) (trimmed.map IndexItem.internalId ++ rest)
          start.store.storage =
        cleanLoop (now - start.store.storage.retentionSeconds) rest state.store.storage := by
  induction pass with
  | restart null now time run =>
      subst time
      rw [null, storageThreadRound_restart holds] at run
      exact ⟨fun _ enough => cleanItemsLoop_batch _ run enough, fun rest => cleanLoop_batch _ rest run⟩
  | call earlier call meets valid run ih => exact absurd meets (never call)
  | @round trimmed state earlier continues now time more saved after run ih =>
      subst time
      obtain ⟨_, _, pass, _⟩ := CleanerPass.holds holds earlier
      rw [storageThreadRound_continue continues, pass.config.retentionSeconds] at run
      obtain ⟨list, ids⟩ := ih
      constructor
      · intro rounds enough
        rw [List.length_append] at enough ⊢
        rw [list rounds (by omega), cleanItemsLoop_batch _ run (by omega), Nat.sub_sub]
      · intro rest
        rw [List.map_append, List.append_assoc, ids, cleanLoop_batch _ rest run]

/-- A round that goes on does not stop the process while the blocks on disk are in order. -/
theorem Cleaner.Holds.round {s : Nat} (holds : state.Holds front ahead) (healthy : state.store.storage.Healthy s)
    (now : Int) : ∃ result after, TheStorage.storageThreadRound now state.item state.store = .ok result after ∧
      after.storage.Healthy s := by
  by_cases null : state.item = none
  · rw [null, storageThreadRound_restart holds.store]
    exact @storageThreadBatch_run s _ _ _ [] _ holds.store healthy
  · rw [storageThreadRound_continue null, holds.saved]
    exact storageThreadBatch_run _ _ holds.store healthy

/-- Every round leaves fewer items ahead. -/
theorem CleanerPass.finishes {s : Nat} {now : Int} {start : Cleaner} {items : List IndexItem} (number : Nat) :
    ∀ {state : Cleaner} {added trimmed ahead : List IndexItem},
      CleanerPass (fun _ => False) (· = now) start trimmed state → PassHolds start items added trimmed state ahead →
      state.store.storage.Healthy s → ahead.length ≤ number →
      ∃ trimmed finish, CleanerPass (fun _ => False) (· = now) start trimmed finish ∧ finish.item = none := by
  induction number with
  | zero =>
      intro state added trimmed ahead pass held _ none
      obtain ⟨front, cleaner⟩ := held.cleaner
      rw [List.eq_nil_of_length_eq_zero (Nat.le_zero.mp none)] at cleaner
      exact ⟨trimmed, state, pass, cleaner.saved⟩
  | succ number ih =>
      intro state added trimmed ahead pass held healthy few
      obtain ⟨front, cleaner⟩ := held.cleaner
      by_cases null : state.item = none
      · exact ⟨trimmed, state, pass, null⟩
      obtain ⟨⟨more, saved⟩, after, run, healthy⟩ := cleaner.round healthy now
      have next := pass.round null now rfl run
      rw [storageThreadRound_continue null, cleaner.saved] at run
      apply ih next (held.batch run).2 healthy
      rw [List.length_drop, TheStorage.maxNumItems]
      omega

end

/-- The storage that a run leads to can start the thread, with trees and a list that hold its items. -/
theorem storageRun_holds {retentionSeconds : Int} {s : Nat} {events : List Event} {store : Storage} (large : 4 < s)
    (run : StorageRun retentionSeconds s (fun _ _ op => op.Valid) events store) {debugBuild : Bool}
    {indices : List CString} {indexes : Indexes} (reached : Indexes.Reached debugBuild indices true indexes)
    (names : indexes.listItems.map IndexItem.name = store.names)
    (next : indexes.nextInternalId = store.nextInternalId) :
    TheStorage.Holds ⟨store, indexes⟩ indexes.listItems ∧ store.Healthy s := by
  obtain ⟨_, keyBlocks, dataBlocks, holds⟩ := run.kept (ownLaw s) large (fun _ _ _ valid => valid)
    fun _ _ _ _ dataBlocks _ _ item made => made.owns (blockAt_zero dataBlocks)
  obtain ⟨_, _, placeholders, consistent, none⟩ := reached.agrees
  rw [none rfl] at consistent
  have ids : indexes.listItems.map IndexItem.internalId = store.items.map StorageItem.internalId := by
    rw [← Storage.names_ids, ← names, List.map_map]
    rfl
  refine ⟨⟨consistent, names, next, by rw [ids]; exact holds.ids, ?_, holds.next⟩, keyBlocks, dataBlocks, holds⟩
  intro item member
  have there := List.mem_map_of_mem (f := IndexItem.internalId) member
  rw [ids] at there
  obtain ⟨other, present, same⟩ := List.mem_map.mp there
  rw [← same]
  exact holds.below other present

/-- What the batches of a cleaner amount to. A pass ends when the next round restarts. -/
structure Cleaner.CleansAll (state : Cleaner) : Prop where
  saved : ∀ item, state.item = some item → item ∈ state.store.indexes.listItems
  once : ∀ trimmed finish, CleanerPass (fun _ => True) (fun _ => True) state trimmed finish → finish.item = none →
    ∀ item ∈ state.store.indexes.listItems, trimmed.count item = 1
  same : ∀ now trimmed finish, CleanerPass (fun _ => False) (· = now) state trimmed finish → finish.item = none →
    TheStorage.cleanItems now state.store = .ok () finish.store ∧
      cleanItems now state.store.storage = .ok () finish.store.storage
  goesOn : ∀ s now, state.store.storage.Healthy s →
    ∃ result after, TheStorage.storageThreadRound now state.item state.store = .ok result after
  finishes : ∀ s now, state.store.storage.Healthy s → state.item = none →
    ∃ trimmed finish, CleanerPass (fun _ => False) (· = now) state trimmed finish ∧ finish.item = none

/-- In every state the batches of the thread amount to a full pass over the list. -/
theorem cleanerReached_cleansAll {state : Cleaner} (reached : CleanerReached state) : state.CleansAll := by
  obtain ⟨front, ahead, holds⟩ := reached.holds
  have list := holds.store.consistent.listItems
  refine
    { saved := ?_
      once := ?_
      same := ?_
      goesOn := ?_
      finishes := ?_ }
  · intro item saved
    rw [list]
    rw [holds.saved] at saved
    exact List.mem_append_right _ (List.mem_of_mem_head? saved)
  · intro trimmed finish pass null item member
    rw [list] at member
    obtain ⟨added, rest, held, _⟩ := pass.holds holds.store
    obtain ⟨_, cleaner⟩ := held.cleaner
    have sweep := held.sweep
    rw [cleaner.saved, List.head?_eq_none_iff] at null
    rw [null] at sweep
    exact sweep.once item member
  · intro now trimmed finish pass null
    obtain ⟨added, rest, held, alone⟩ := pass.holds holds.store
    obtain ⟨_, cleaner⟩ := held.cleaner
    have whole := held.sweep.order
    have none := null
    rw [cleaner.saved, List.head?_eq_none_iff] at null
    rw [null, alone fun _ => id, List.append_nil, List.append_nil] at whole
    obtain ⟨walk, ids⟩ := pass.alone holds.store fun _ => id
    constructor
    · rw [TheStorage.cleanItems, EStateM.bind_ok (EStateM.get_apply _), list, holds.store.consistent.list.first,
        walk _ (by rw [whole]), none, whole, Nat.sub_self]
      rfl
    · rw [cleanItems, EStateM.bind_ok (EStateM.get_apply _), holds.store.storageList, ← whole]
      have loop := ids []
      rw [List.append_nil] at loop
      exact loop
  · intro s now healthy
    obtain ⟨result, after, run, _⟩ := holds.round healthy now
    exact ⟨result, after, run⟩
  · intro s now healthy null
    obtain ⟨⟨trimmed, saved⟩, after, run, healthy⟩ := holds.round healthy now
    have pass : CleanerPass (fun _ => False) (· = now) state trimmed ⟨after, saved⟩ := by
      apply CleanerPass.restart null now _ run
      rfl
    obtain ⟨added, rest, held, _⟩ := pass.holds holds.store
    exact CleanerPass.finishes rest.length pass held healthy le_rfl

/-- Two keys, the first one with an old point. -/
theorem cleanerReached_cleansAll_twoKeys :
    ∃ state, CleanerReached state ∧ state.store.indexes.listItems.length = 2 ∧ state.store.storage.Healthy 64 ∧
      state.CleansAll := by
  have start : Indexes.Reached false [] true (Indexes.init false []) := .loaded .init nofun
  have first := @Indexes.Reached.get _ _ _ _ start [97] ⟨by decide, by decide⟩ true 4096 ⟨by decide, nofun⟩ _ rfl
  obtain ⟨indexes, second, list, last⟩ : ∃ indexes, Indexes.Reached false [] true indexes ∧
      indexes.listItems.map IndexItem.name = [(1, some [97]), (2, some [98])] ∧ indexes.nextInternalId = 3 :=
    ⟨_, @Indexes.Reached.get _ _ _ _ first [98] ⟨by decide, by decide⟩ true 8192 ⟨by decide, by decide⟩ _ rfl,
      by decide, by decide⟩
  have passed : (initAndRun 10 64 [.write [97] [(5#64, 7#64)], .write [98] [(30#64, 7#64)]] newStorage).passes
      (fun _ store => store.names = [(1, some [97]), (2, some [98])] ∧ store.nextInternalId = 3) = true := by
    decide +kernel
  obtain ⟨results, store, run, checked⟩ := EStateM.Result.of_passes passed
  obtain ⟨names, next⟩ := of_decide_eq_true checked
  have valid : ∀ op ∈ [StorageOp.write [97] [(5#64, 7#64)], .write [98] [(30#64, 7#64)]], op.Valid := by
    decide
  obtain ⟨holds, healthy⟩ := storageRun_holds (by decide) (StorageRun.of_init (fun op member _ _ => valid op member) run)
    second (list.trans names.symm) (last.trans next.symm)
  have reached := CleanerReached.start holds
  exact ⟨_, reached, by simpa using congrArg List.length list, healthy, cleanerReached_cleansAll reached⟩

end Menoetius
