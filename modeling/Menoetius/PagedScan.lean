import Menoetius.LookupAgree
import Menoetius.TheStorageRun

/-
This file shows when a scan in pages returns each key once, while other calls change the storage between the pages.
-/

namespace Menoetius
open SearchTree RbTree Indexes

theorem storageItemCmp_id (internalId : Nat) (item : IndexItem) :
    storageItemCmp internalIdIndex (idToFind internalId) item =
      if internalId < item.internalId then .lt else if item.internalId < internalId then .gt else .eq := rfl

/-- The search in a sorted tree ends at the item with the greatest id up to the one that is looked for. -/
theorem nearestLesser_greatest {internalId : Nat} {nearest : Option IndexItem} {tree : RbTree IndexItem}
    (sorted : tree.toList.Pairwise fun first second => first.internalId ≤ second.internalId)
    (low : ∀ item ∈ nearest, item.internalId ≤ internalId ∧
      ∀ other ∈ tree.toList, item.internalId ≤ other.internalId) :
    (sglibFindMemberOrNearestLesser (storageItemCmp internalIdIndex (idToFind internalId)) nearest tree = none ∧
      nearest = none ∧ ∀ other ∈ tree.toList, internalId < other.internalId) ∨
    ∃ item, sglibFindMemberOrNearestLesser (storageItemCmp internalIdIndex (idToFind internalId)) nearest tree =
        some item ∧ (item ∈ tree.toList ∨ nearest = some item) ∧ item.internalId ≤ internalId ∧
      ∀ other ∈ tree.toList, other.internalId ≤ internalId → other.internalId ≤ item.internalId := by
  induction tree generalizing nearest with
  | leaf =>
      cases nearest with
      | none => exact Or.inl ⟨rfl, rfl, nofun⟩
      | some item => exact Or.inr ⟨item, rfl, Or.inr rfl, (low item rfl).1, nofun⟩
  | node color left root right ihLeft ihRight =>
      rw [toList_node, List.pairwise_append] at sorted
      obtain ⟨sortedLeft, sortedRest, across⟩ := sorted
      obtain ⟨behind, sortedRight⟩ := List.pairwise_cons.mp sortedRest
      rw [toList_node, sglibFindMemberOrNearestLesser, storageItemCmp_id]
      by_cases less : internalId < root.internalId
      · rw [if_pos less]
        have above : ∀ other ∈ root :: right.toList, internalId < other.internalId := by
          intro other mem
          rcases List.mem_cons.mp mem with rfl | there
          · exact less
          · exact lt_of_lt_of_le less (behind other there)
        have lower : ∀ item ∈ nearest, item.internalId ≤ internalId ∧
            ∀ other ∈ left.toList, item.internalId ≤ other.internalId := fun item mem =>
          ⟨(low item mem).1, fun other there => (low item mem).2 other (by
            rw [toList_node]
            exact List.mem_append_left _ there)⟩
        rcases ihLeft sortedLeft lower with ⟨found, none, all⟩ | ⟨item, found, place, upTo, greatest⟩
        · refine Or.inl ⟨found, none, fun other mem => ?_⟩
          exact (List.mem_append.mp mem).elim (all other) (above other)
        · refine Or.inr ⟨item, found, place.imp_left (List.mem_append_left _), upTo, fun other mem small => ?_⟩
          rcases List.mem_append.mp mem with there | there
          · exact greatest other there small
          · exact absurd small (Nat.not_le.mpr (above other there))
      · rw [if_neg less]
        by_cases more : root.internalId < internalId
        · rw [if_pos more]
          have lower : ∀ item ∈ some root, item.internalId ≤ internalId ∧
              ∀ other ∈ right.toList, item.internalId ≤ other.internalId := by
            rintro item ⟨⟩
            exact ⟨more.le, behind⟩
          rcases ihRight sortedRight lower with ⟨_, none, _⟩ | ⟨item, found, place, upTo, greatest⟩
          · cases none
          · have least : root.internalId ≤ item.internalId := by
              rcases place with there | here
              · exact behind item there
              · cases here
                exact le_rfl
            refine Or.inr ⟨item, found, Or.inl ?_, upTo, fun other mem small => ?_⟩
            · rcases place with there | here
              · exact List.mem_append_right _ (List.mem_cons_of_mem _ there)
              · cases here
                exact List.mem_append_right _ List.mem_cons_self
            · rcases List.mem_append.mp mem with there | there
              · exact (across other there root List.mem_cons_self).trans least
              · rcases List.mem_cons.mp there with rfl | there
                · exact least
                · exact greatest other there small
        · rw [if_neg more]
          obtain same : root.internalId = internalId := by omega
          refine Or.inr ⟨root, rfl, Or.inl (List.mem_append_right _ List.mem_cons_self), same.le,
            fun other _ small => ?_⟩
          rw [same]
          exact small

/-- A scan goes on behind the item with the greatest id up to a number, and at the start for the number zero. -/
inductive GoesOn (items : List IndexItem) (internalId : Nat) : List IndexItem → Prop
  | start (zero : internalId = 0) : GoesOn items internalId items
  | behind {front back : List IndexItem} {item : IndexItem} (some : internalId ≠ 0)
      (split : items = front ++ item :: back)
      (upTo : item.internalId ≤ internalId)
      (greatest : ∀ other ∈ items, other.internalId ≤ internalId → other.internalId ≤ item.internalId) :
      GoesOn items internalId back
  | nowhere (some : internalId ≠ 0) (above : ∀ other ∈ items, internalId < other.internalId) :
      GoesOn items internalId []

namespace Indexes

variable {store : Indexes} {items : List IndexItem}

theorem Consistent.scanItems_goesOn (consistent : store.Consistent items []) (internalId : Nat) :
    GoesOn items internalId (store.scanItems internalId) := by
  by_cases zero : internalId = 0
  · rw [zero, consistent.scanItems]
    exact .start rfl
  · have perm := consistent.perm internalIdIndex consistent.zero_lt
    rw [if_pos rfl, List.append_nil] at perm
    have sorted : (store.root internalIdIndex).toList.Pairwise
        fun first second => first.internalId ≤ second.internalId := by
      refine (consistent.indexed internalIdIndex consistent.zero_lt).sorted.imp ?_
      intro first second before
      have notGreater : storageItemCmp internalIdIndex first second ≠ .gt := by
        rcases before with less | ⟨equal, _⟩
        · rw [less]
          decide
        · rw [equal]
          decide
      by_contra greater
      have greater := Nat.not_le.mp greater
      have compared : storageItemCmp internalIdIndex first second = .gt := by
        change (if first.internalId < second.internalId then Ordering.lt
          else if second.internalId < first.internalId then .gt else .eq) = .gt
        rw [if_neg (by omega), if_pos greater]
      exact notGreater compared
    rcases nearestLesser_greatest sorted (fun _ mem => absurd mem (Option.not_mem_none _)) with
      ⟨missing, _, above⟩ | ⟨item, found, place, upTo, greatest⟩
    · rw [← List.append_nil items] at consistent
      rw [consistent.scanItems_eq (by rw [scanFrom, if_neg zero, missing]; rfl)]
      exact .nowhere zero fun other mem => above other (perm.mem_iff.mpr mem)
    · have there := place.resolve_right (Option.some_ne_none item).symm
      obtain ⟨front, back, split⟩ := List.append_of_mem (perm.mem_iff.mp there)
      have behind : store.scanFrom internalId = back.head? := by
        rw [scanFrom, if_neg zero, found]
        exact consistent.list.next front item back split
      have parts := consistent
      rw [split, ← List.singleton_append, ← List.append_assoc] at parts
      rw [parts.scanItems_eq behind]
      exact .behind zero split upTo fun other mem => greatest other (perm.mem_iff.mpr mem)

end Indexes

/-- Calls that write points, sync the storage or clean it, in any order. -/
inductive TheStorage.Changes : TheStorage → TheStorage → Prop
  | refl (store : TheStorage) : TheStorage.Changes store store
  | step {store middle after : TheStorage} (earlier : TheStorage.Changes store middle) (op : TheStorageOp)
      (valid : op.Valid) (running : ∀ memory choose, op ≠ .restart memory choose)
      (run : op.run middle = .ok () after) :
      TheStorage.Changes store after

/-- One call of `storage_lookup_without_index`: the storage, the id that is passed, and the results. -/
structure ScanCall where
  store : TheStorage
  lastInternalId : Nat
  results : List UInt8

/-- The items whose keys a call returns. -/
def ScanCall.items (call : ScanCall) : List IndexItem := (resultKeys call.results).filterMap call.store.indexes.findKey

/-- The calls of a client that passes back the id that it received, until there are no results. -/
inductive PagedScan (matchers : List UInt8) (numMatchers room limit : Nat) :
    TheStorage → Nat → List ScanCall → Prop
  | last {store : TheStorage} {lastInternalId next : Nat}
      (run : store.indexes.storageLookupWithoutIndex matchers numMatchers room lastInternalId limit =
        .ok (none, [], next)) :
      PagedScan matchers numMatchers room limit store lastInternalId [⟨store, lastInternalId, []⟩]
  | page {store after : TheStorage} {lastInternalId next : Nat} {results : List UInt8} {calls : List ScanCall}
      (run : store.indexes.storageLookupWithoutIndex matchers numMatchers room lastInternalId limit =
        .ok (none, results, next)) (some : results ≠ []) (changes : store.Changes after)
      (rest : PagedScan matchers numMatchers room limit after next calls) :
      PagedScan matchers numMatchers room limit store lastInternalId (⟨store, lastInternalId, results⟩ :: calls)

/-- No item is returned twice, and every item that the matchers meet and that is there from the first call to the last
one is returned. -/
structure ReturnsEachOnce (matchers : List UInt8) (numMatchers : Nat) (calls : List ScanCall) : Prop where
  once : (calls.flatMap ScanCall.items).Nodup
  all : ∀ first ∈ calls.head?, ∀ last ∈ calls.getLast?, ∀ item ∈ first.store.indexes.listItems,
    item ∈ last.store.indexes.listItems → item.meets matchers numMatchers = true →
    item ∈ calls.flatMap ScanCall.items

/-- The items of a list up to the one with an id. -/
def passedItems (items : List IndexItem) (internalId : Nat) : List IndexItem :=
  items.take (items.findIdx (fun item => item.internalId = internalId) + 1)

/-- No item that the matchers meet, of those stored since the call before, lies between the place where the scan goes on
and the place that the item with the passed id had at that call. -/
def Resumes (matchers : List UInt8) (numMatchers : Nat) (before call : ScanCall) : Prop :=
  ∀ behind, GoesOn call.store.indexes.listItems call.lastInternalId behind →
    ∀ item ∈ before.store.indexes.listItems, item ∈ call.store.indexes.listItems →
      item.meets matchers numMatchers = true →
      (item ∈ behind ↔ item ∉ passedItems before.store.indexes.listItems call.lastInternalId)

/-- A call finds its place: the item with the passed id is still stored, or the items were in the order of their ids at
the call before and one with a lesser id is still stored. -/
def KeepsPlace (before call : ScanCall) : Prop :=
  call.lastInternalId ≠ 0 ∧
    ((∃ item ∈ call.store.indexes.listItems, item.internalId = call.lastInternalId) ∨
      (before.store.indexes.listItems.Pairwise fun first second => first.internalId < second.internalId) ∧
        ∃ item ∈ call.store.indexes.listItems, item.internalId < call.lastInternalId)

instance (before call : ScanCall) : Decidable (KeepsPlace before call) := by
  unfold KeepsPlace
  infer_instance

section
variable {store after : TheStorage} {items : List IndexItem}

theorem passedItems_eq {front back : List IndexItem} {item : IndexItem}
    (distinct : ((front ++ item :: back).map IndexItem.internalId).Nodup) :
    passedItems (front ++ item :: back) item.internalId = front ++ [item] := by
  have others : ∀ other ∈ front, other.internalId ≠ item.internalId := by
    intro other mem
    rw [List.map_append, List.nodup_append] at distinct
    exact distinct.2.2 _ (List.mem_map_of_mem mem) _ (List.mem_map_of_mem List.mem_cons_self)
  have place : (front ++ item :: back).findIdx (fun other => other.internalId = item.internalId) = front.length := by
    rw [List.findIdx_append, List.findIdx_cons]
    have none : front.findIdx (fun other => other.internalId = item.internalId) = front.length :=
      List.findIdx_eq_length.mpr fun other mem => decide_eq_false (others other mem)
    rw [none, if_neg (Nat.lt_irrefl _), decide_eq_true rfl, cond_true, Nat.zero_add]
  rw [passedItems, place, ← List.singleton_append, ← List.append_assoc]
  exact List.take_left' (by rw [List.length_append, List.length_singleton])

/-- An item that is passed leaves the list or stays, and the loop does not add any. -/
theorem cleanItemsLoop_sublist {t : Int} (rounds : Nat) :
    ∀ {store after : TheStorage} {front ahead : List IndexItem}, store.Holds (front ++ ahead) →
      TheStorage.cleanItemsLoop t rounds ahead.head? store = .ok () after →
      after.storage.nextInternalId = store.storage.nextInternalId ∧
        ∃ kept, kept.Sublist (front ++ ahead) ∧ after.Holds kept := by
  induction rounds with
  | zero =>
      intro store after front ahead holds run
      cases ahead with
      | nil =>
          cases run
          exact ⟨rfl, front ++ [], List.Sublist.refl _, holds⟩
      | cons item rest => cases run
  | succ rounds ih =>
      intro store after front ahead holds run
      cases ahead with
      | nil =>
          cases run
          exact ⟨rfl, front ++ [], List.Sublist.refl _, holds⟩
      | cons item rest =>
          obtain ⟨next, middle, passed, run⟩ := EStateM.of_bind_ok run
          obtain ⟨rfl, _, same, kept, part, still⟩ := cleanItem_holds holds passed
          obtain ⟨again, left, sub, later⟩ := ih still run
          refine ⟨again.trans same, left, sub.trans ?_, later⟩
          rw [← List.singleton_append, ← List.append_assoc]
          exact part.append_right rest

/-- A storage holds items that were there before, in the same order, and behind them items with new ids. -/
structure Later (store after : TheStorage) (items later : List IndexItem) : Prop where
  indexed : after.Indexed later
  next : store.storage.nextInternalId ≤ after.storage.nextInternalId
  order : ∃ kept new, later = kept ++ new ∧ kept.Sublist items ∧
    ∀ item ∈ new, store.storage.nextInternalId ≤ item.internalId

theorem Later.known {later : List IndexItem} (kept : Later store after items later) {item : IndexItem}
    (mem : item ∈ later) : item ∈ items ∨ store.storage.nextInternalId ≤ item.internalId := by
  obtain ⟨old, new, rfl, part, fresh⟩ := kept.order
  exact (List.mem_append.mp mem).imp (part.subset ·) (fresh item)

theorem Later.trans {middle : TheStorage} {later last : List IndexItem} (first : Later store middle items later)
    (second : Later middle after later last) : Later store after items last := by
  obtain ⟨kept, new, rfl, part, fresh⟩ := first.order
  obtain ⟨_, others, rfl, sub, ids⟩ := second.order
  obtain ⟨still, some, rfl, left, right⟩ := List.sublist_append_iff.mp sub
  refine ⟨second.indexed, first.next.trans second.next, still, some ++ others, List.append_assoc _ _ _, left.trans part,
    ?_⟩
  intro item mem
  rcases List.mem_append.mp mem with there | there
  · exact fresh item (right.subset there)
  · exact first.next.trans (ids item there)

theorem TheStorage.Holds.unique {others : List IndexItem} (holds : store.Holds items) (also : store.Holds others) :
    items = others := holds.consistent.listItems.symm.trans also.consistent.listItems

theorem run_later (indexed : store.Indexed items) (op : TheStorageOp) (valid : op.Valid)
    (running : ∀ memory choose, op ≠ .restart memory choose) (run : op.run store = .ok () after) :
    ∃ later, Later store after items later := by
  obtain ⟨_, later, still⟩ := op.run_indexed indexed valid run
  have unchanged : after.Holds items → later = items := still.holds.unique
  suffices rest : store.storage.nextInternalId ≤ after.storage.nextInternalId ∧
      ∃ kept new, later = kept ++ new ∧ kept.Sublist items ∧
        ∀ item ∈ new, store.storage.nextInternalId ≤ item.internalId from
    ⟨later, still, rest.1, rest.2⟩
  cases op with
  | write key points choose =>
      obtain ⟨address, _, new, write⟩ := EStateM.of_bind_ok run
      obtain ⟨same, fresh⟩ := of_newAddress new
      rw [same] at write
      obtain ⟨written, _, wrote, ended⟩ := EStateM.of_bind_ok write
      cases ended
      have grows := storageWrite_grows indexed.holds valid fresh wrote
      rcases grows.list with holds | ⟨new, numbered, holds⟩
      · exact ⟨grows.next, items, [], by rw [unchanged holds, List.append_nil], List.Sublist.refl _, nofun⟩
      · refine ⟨grows.next, items, [new], still.holds.unique holds, List.Sublist.refl _, fun item mem => ?_⟩
        rw [List.mem_singleton.mp mem]
        exact numbered.ge
  | sync =>
      obtain ⟨storage, rfl, same⟩ := ignoreCode_ok
        (onStorage_ends (storageSync_sameNames indexed.holds.storageDistinct)) run
      exact ⟨same.next.ge, items, [], by rw [unchanged (indexed.holds.withStorage same), List.append_nil],
        List.Sublist.refl _, nofun⟩
  | clean now =>
      obtain ⟨_, _, start, run⟩ := EStateM.of_bind_ok run
      cases start
      rw [indexed.holds.consistent.list.first] at run
      obtain ⟨same, kept, sub, holds⟩ := @cleanItemsLoop_sublist _ _ _ _ [] items indexed.holds run
      exact ⟨same.ge, kept, [], by rw [still.holds.unique holds, List.append_nil], sub, nofun⟩
  | restart memory choose => exact absurd rfl (running memory choose)

theorem TheStorage.Changes.later (changes : store.Changes after) (indexed : store.Indexed items) :
    ∃ later, Later store after items later := by
  induction changes with
  | refl => exact ⟨items, indexed, le_rfl, items, [], (List.append_nil items).symm, List.Sublist.refl _, nofun⟩
  | step _ op valid running run ih =>
      obtain ⟨middle, kept⟩ := ih
      obtain ⟨later, still⟩ := run_later kept.indexed op valid running run
      exact ⟨later, kept.trans still⟩

/-- A call resumes if the item with the passed id is still stored. -/
theorem TheStorage.Changes.resumes (changes : store.Changes after) (indexed : store.Indexed items) {last : IndexItem}
    (mem : last ∈ items) (still : last ∈ after.indexes.listItems) (some : last.internalId ≠ 0)
    (matchers : List UInt8) (numMatchers lastInternalId : Nat) (results more : List UInt8) :
    Resumes matchers numMatchers ⟨store, lastInternalId, results⟩ ⟨after, last.internalId, more⟩ := by
  obtain ⟨later, kept⟩ := changes.later indexed
  have holds := indexed.holds
  have ids := kept.indexed.holds.ids
  obtain ⟨old, new, rfl, part, fresh⟩ := kept.order
  obtain ⟨front, back, rfl⟩ := List.append_of_mem mem
  have once := List.Nodup.of_map _ holds.ids
  rw [← List.singleton_append, ← List.append_assoc] at part once
  obtain ⟨passed, ahead, rfl, left, right⟩ := List.sublist_append_iff.mp part
  obtain ⟨early, closing, rfl, start, single⟩ := List.sublist_append_iff.mp left
  rw [kept.indexed.holds.consistent.listItems] at still
  -- the item with the passed id is the last one of those that the call before passed
  obtain rfl : closing = [last] := by
    rcases List.sublist_singleton.mp single with rfl | rfl
    · rw [List.append_nil, List.append_assoc] at still
      rcases List.mem_append.mp still with there | there
      · exact absurd rfl ((List.nodup_append.mp (List.nodup_append.mp once).1).2.2 last (start.subset there) last
          (List.mem_singleton_self last))
      · rcases List.mem_append.mp there with there | there
        · exact absurd rfl ((List.nodup_append.mp once).2.2 last
            (List.mem_append_right _ (List.mem_singleton_self last)) last (right.subset there))
        · exact absurd (holds.below last mem) (Nat.not_lt.mpr (fresh last there))
    · rfl
  intro behind goesOn item had stored _
  dsimp only at goesOn had stored ⊢
  rw [kept.indexed.holds.consistent.listItems] at goesOn stored
  rw [holds.consistent.listItems] at had ⊢
  rw [passedItems_eq holds.ids]
  have whole : early ++ [last] ++ ahead ++ new = early ++ last :: (ahead ++ new) := by simp
  rw [whole] at goesOn stored ids
  have distinct := List.Nodup.of_map _ ids
  obtain rfl : behind = ahead ++ new := by
    cases goesOn with
    | start zero => exact absurd zero some
    | @behind _ _ other _ split upTo greatest =>
        have there : last ∈ early ++ last :: (ahead ++ new) := List.mem_append_right _ List.mem_cons_self
        have inside : other ∈ early ++ last :: (ahead ++ new) := by
          rw [split]
          exact List.mem_append_right _ List.mem_cons_self
        obtain rfl := List.inj_on_of_nodup_map ids there inside (Nat.le_antisymm (greatest last there le_rfl) upTo)
        have alone := (List.nodup_cons.mp (List.nodup_middle.mp distinct)).1
        exact ((List.append_cons_inj_of_notMem (alone ∘ List.mem_append_left _)
          (alone ∘ List.mem_append_right _)).mp split).2.2.symm
    | nowhere _ above => exact absurd (above last (List.mem_append_right _ List.mem_cons_self)) (lt_irrefl _)
  constructor
  · intro later passed
    rcases List.mem_append.mp later with there | there
    · exact (List.nodup_append.mp once).2.2 item passed item (right.subset there) rfl
    · exact Nat.not_lt.mpr (fresh item there) (holds.below item had)
  · intro missing
    rcases List.mem_append.mp stored with there | there
    · exact absurd (List.mem_append_left _ (start.subset there)) missing
    · rcases List.mem_cons.mp there with rfl | there
      · exact absurd (List.mem_append_right _ (List.mem_singleton_self item)) missing
      · exact there

/-- In the order of the ids, the items up to one are those whose ids are not greater. -/
theorem mem_passedItems {last item : IndexItem} (ordered : items.Pairwise fun first second =>
    first.internalId < second.internalId) (there : last ∈ items) (mem : item ∈ items) :
    item ∈ passedItems items last.internalId ↔ item.internalId ≤ last.internalId := by
  obtain ⟨front, back, rfl⟩ := List.append_of_mem there
  have distinct : ((front ++ last :: back).map IndexItem.internalId).Nodup :=
    List.pairwise_map.mpr (ordered.imp fun less => Nat.ne_of_lt less)
  obtain ⟨-, behind, across⟩ := List.pairwise_append.mp ordered
  rw [passedItems_eq distinct, List.mem_append, List.mem_singleton]
  constructor
  · rintro (before | rfl)
    · exact (across item before last List.mem_cons_self).le
    · exact le_rfl
  · intro small
    rcases List.mem_append.mp mem with before | after
    · exact Or.inl before
    · rcases List.mem_cons.mp after with here | after
      · exact Or.inr here
      · exact absurd small (Nat.not_le.mpr ((List.pairwise_cons.mp behind).1 item after))

/-- Behind the items that stay in the order of their ids come only new ones, with greater ids. -/
theorem Later.ordered {later : List IndexItem} (kept : Later store after items later)
    (ordered : items.Pairwise fun first second => first.internalId < second.internalId) :
    later.Pairwise fun first second =>
      second.internalId < store.storage.nextInternalId → first.internalId < second.internalId := by
  obtain ⟨old, new, rfl, part, fresh⟩ := kept.order
  refine List.pairwise_append.mpr ⟨(ordered.sublist part).imp ?_, ?_, ?_⟩
  · intro _ _ less _
    exact less
  · exact List.pairwise_of_forall_mem_list fun _ _ second mem known => absurd known (Nat.not_lt.mpr (fresh second mem))
  · exact fun _ _ second mem known => absurd known (Nat.not_lt.mpr (fresh second mem))

/-- A call resumes behind an item with a lesser id, if the items were in the order of their ids. -/
theorem TheStorage.Changes.resumes_ordered (changes : store.Changes after) (indexed : store.Indexed items)
    (ordered : items.Pairwise fun first second => first.internalId < second.internalId) {last : IndexItem}
    (mem : last ∈ items) {lesser : IndexItem} (stays : lesser ∈ after.indexes.listItems)
    (less : lesser.internalId < last.internalId) (matchers : List UInt8) (numMatchers lastInternalId : Nat)
    (results more : List UInt8) :
    Resumes matchers numMatchers ⟨store, lastInternalId, results⟩ ⟨after, last.internalId, more⟩ := by
  obtain ⟨later, kept⟩ := changes.later indexed
  have below := indexed.holds.below
  have order := kept.ordered ordered
  intro behind goesOn item had stored _
  dsimp only at goesOn had stored ⊢
  rw [kept.indexed.holds.consistent.listItems] at goesOn stored stays
  rw [indexed.holds.consistent.listItems] at had ⊢
  rw [mem_passedItems ordered mem had, Nat.not_le]
  cases goesOn with
  | start zero => omega
  | nowhere _ above => exact absurd less (Nat.lt_asymm (above lesser stays))
  | @behind front _ found _ split upTo greatest =>
      rw [split] at order
      obtain ⟨-, rest, across⟩ := List.pairwise_append.mp order
      have known := below item had
      constructor
      · intro there
        have more := (List.pairwise_cons.mp rest).1 item there known
        by_contra small
        exact absurd (greatest item stored (Nat.not_lt.mp small)) (Nat.not_le.mpr more)
      · intro greater
        rw [split] at stored
        rcases List.mem_append.mp stored with before | there
        · have smaller := across item before found List.mem_cons_self (upTo.trans_lt (below last mem))
          omega
        · rcases List.mem_cons.mp there with rfl | there
          · omega
          · exact there

/-- A call that keeps its place resumes. -/
theorem TheStorage.Changes.resumes_place (changes : store.Changes after) (indexed : store.Indexed items)
    {last : IndexItem} (mem : last ∈ items) (matchers : List UInt8) (numMatchers lastInternalId : Nat)
    (results more : List UInt8)
    (place : KeepsPlace ⟨store, lastInternalId, results⟩ ⟨after, last.internalId, more⟩) :
    Resumes matchers numMatchers ⟨store, lastInternalId, results⟩ ⟨after, last.internalId, more⟩ := by
  obtain ⟨some, ⟨item, stays, same⟩ | ⟨ordered, lesser, stays, less⟩⟩ := place
  · obtain ⟨later, kept⟩ := changes.later indexed
    have list := kept.indexed.holds.consistent.listItems
    have known : item ∈ items := by
      refine (kept.known (list ▸ stays)).resolve_right fun new => ?_
      rw [same] at new
      exact absurd (indexed.holds.below last mem) (Nat.not_lt.mpr new)
    obtain rfl : item = last := List.inj_on_of_nodup_map indexed.holds.ids known mem same
    exact changes.resumes indexed mem stays some matchers numMatchers lastInternalId results more
  · rw [indexed.holds.consistent.listItems] at ordered
    exact changes.resumes_ordered indexed ordered mem stays less matchers numMatchers lastInternalId results more

end

section
variable {matchers : List UInt8} {numMatchers room limit : Nat} {store : TheStorage} {items : List IndexItem}

/-- A call returns the first page of the items from its place on, and the id of the last of them. -/
theorem scanCall_run (indexed : store.Indexed items) {lastInternalId next : Nat} {results : List UInt8}
    (run : store.indexes.storageLookupWithoutIndex matchers numMatchers room lastInternalId limit =
      .ok (none, results, next)) :
    results = resultsOf (pageOf matchers numMatchers 0 limit (store.indexes.scanItems lastInternalId)) ∧
      next = lastIdOf lastInternalId (pageOf matchers numMatchers 0 limit (store.indexes.scanItems lastInternalId)) := by
  rcases storageLookupWithoutIndex_run indexed.holds.consistent matchers numMatchers room lastInternalId limit with
    ⟨_, same⟩ | ⟨_, part, last, same⟩
  · cases same.symm.trans run
    exact ⟨rfl, rfl⟩
  · cases same.symm.trans run

/-- The items that a call returns are found by their keys. -/
theorem scanCall_items (indexed : store.Indexed items) (lastInternalId : Nat) {page : List IndexItem}
    (part : page ⊆ items) :
    (ScanCall.mk store lastInternalId (resultsOf page)).items = page := by
  have consistent := indexed.holds.consistent
  have keys : (items.map IndexItem.key).Nodup := by
    obtain ⟨_, keys⟩ := indexed.keys
    rw [← indexed.holds.storageKeys]
    exact keys.keysDistinct
  have found : ∀ item ∈ page, store.indexes.findKey item.keyBytes = some item := by
    intro item mem
    have named := (consistent.keyBytes (part mem)).1
    rcases consistent.findKey_cases item.keyBytes with ⟨other, inside, found, called⟩ | ⟨_, absent⟩
    · rw [found, List.inj_on_of_nodup_map keys inside (part mem) (called.trans named.symm)]
    · exact absurd named (absent item (part mem))
  rw [ScanCall.items, resultKeys_resultsOf fun item mem => consistent.keyLength (part mem), List.filterMap_map]
  have same : page.filterMap (store.indexes.findKey ∘ IndexItem.keyBytes) = page.filterMap some :=
    List.filterMap_congr fun item mem => found item mem
  rw [same, List.filterMap_some]

/-- The first items that a list has of a kind end at one of them. -/
theorem take_filter_split {α : Type} {keeps : α → Bool} {list front : List α} {last : α} {count : Nat}
    (taken : (list.filter keeps).take count = front ++ [last]) :
    ∃ before behind, list = before ++ last :: behind ∧ (before ++ [last]).filter keeps = front ++ [last] := by
  have whole := List.take_append_drop count (list.filter keeps)
  rw [taken, List.append_assoc] at whole
  obtain ⟨start, rest, rfl, first, second⟩ := List.filter_eq_append_iff.mp whole.symm
  obtain ⟨skipped, behind, rfl, refused, kept, _⟩ := List.filter_eq_cons_iff.mp second
  refine ⟨start ++ skipped, behind, by rw [List.append_assoc], ?_⟩
  have none : skipped.filter keeps = [] := List.filter_eq_nil_iff.mpr refused
  rw [List.filter_append, List.filter_append, first, none, List.append_nil, List.filter_cons_of_pos kept]
  rfl

theorem pageOf_sub {scanned : List IndexItem} : (pageOf matchers numMatchers 0 limit scanned).Sublist scanned := by
  rw [pageOf, List.drop_zero]
  exact (List.take_sublist _ _).trans List.filter_sublist

theorem meets_of_page {scanned : List IndexItem} {item : IndexItem}
    (mem : item ∈ pageOf matchers numMatchers 0 limit scanned) : item.meets matchers numMatchers = true := by
  rw [pageOf, List.drop_zero] at mem
  exact (List.mem_filter.mp (List.mem_of_mem_take mem)).2

theorem resultsOf_eq_nil {page : List IndexItem} (none : resultsOf page = []) : page = [] := by
  cases page with
  | nil => rfl
  | cons item rest =>
      have length := congrArg List.length none
      rw [resultsOf, List.flatMap_cons, List.length_append, result_length, List.length_nil] at length
      omega

/-- The items up to the last one of a page were not ahead of the scan, or they are in the page. -/
theorem passed_iff {front scanned ahead : List IndexItem} {last : IndexItem}
    (distinct : ((front ++ scanned).map IndexItem.internalId).Nodup)
    (page : pageOf matchers numMatchers 0 limit scanned = ahead ++ [last]) {item : IndexItem}
    (mem : item ∈ front ++ scanned) (meets : item.meets matchers numMatchers = true) :
    item ∈ passedItems (front ++ scanned) last.internalId ↔ item ∉ scanned ∨ item ∈ ahead ++ [last] := by
  have taken := page
  rw [pageOf, List.drop_zero] at taken
  obtain ⟨before, behind, rfl, kept⟩ := take_filter_split taken
  have once := List.Nodup.of_map _ distinct
  rw [← List.append_assoc] at distinct once mem ⊢
  rw [passedItems_eq distinct]
  have inPage : item ∈ ahead ++ [last] ↔ item ∈ before ++ [last] := by
    rw [← kept, List.mem_filter]
    exact and_iff_left meets
  rw [inPage, List.append_assoc, List.mem_append]
  constructor
  · rintro (there | here)
    · refine Or.inl fun later => ?_
      rw [List.append_assoc, List.nodup_append] at once
      exact once.2.2 item there item later rfl
    · exact Or.inr here
  · rintro (outside | here)
    · refine Or.inl ?_
      rw [List.append_assoc] at mem
      exact (List.mem_append.mp mem).resolve_right outside
    · exact Or.inr here

/-- The items of a call are stored, and the id of the last of them is passed on. -/
theorem scanCall_page (indexed : store.Indexed items) {lastInternalId next : Nat} {results : List UInt8}
    (run : store.indexes.storageLookupWithoutIndex matchers numMatchers room lastInternalId limit =
      .ok (none, results, next)) (full : results ≠ []) :
    ∃ ahead last, pageOf matchers numMatchers 0 limit (store.indexes.scanItems lastInternalId) = ahead ++ [last] ∧
      results = resultsOf (ahead ++ [last]) ∧ next = last.internalId ∧ ahead ++ [last] ⊆ items := by
  obtain ⟨rfl, rfl⟩ := scanCall_run indexed run
  obtain ⟨front, split, _⟩ := scanItems_suffix indexed.holds.consistent lastInternalId
  rcases List.eq_nil_or_concat (pageOf matchers numMatchers 0 limit (store.indexes.scanItems lastInternalId)) with
    none | ⟨ahead, last, paged⟩
  · rw [none] at full
    exact absurd rfl full
  · rw [List.concat_eq_append] at paged
    refine ⟨ahead, last, paged, by rw [paged], ?_, fun item mem => ?_⟩
    · rw [paged, lastIdOf, List.getLast?_concat]
      rfl
    · rw [split]
      exact List.mem_append_right _ (pageOf_sub.subset (paged ▸ mem))

/-- The first call of a scan has the storage and the id that the scan starts with. -/
theorem PagedScan.first {lastInternalId : Nat} {calls : List ScanCall}
    (scan : PagedScan matchers numMatchers room limit store lastInternalId calls) :
    ∃ results others, calls = ⟨store, lastInternalId, results⟩ :: others := by
  cases scan with
  | last => exact ⟨_, _, rfl⟩
  | page => exact ⟨_, _, rfl⟩

/-- The calls of a scan that keep their places resume. -/
theorem PagedScan.resumes {lastInternalId : Nat} {calls : List ScanCall}
    (scan : PagedScan matchers numMatchers room limit store lastInternalId calls) (indexed : store.Indexed items)
    (places : calls.IsChain KeepsPlace) : calls.IsChain (Resumes matchers numMatchers) := by
  induction scan generalizing items with
  | last => exact List.isChain_singleton _
  | @page store after lastInternalId next results calls run full changes rest ih =>
      obtain ⟨ahead, last, -, -, rfl, part⟩ := scanCall_page indexed run full
      obtain ⟨later, kept⟩ := changes.later indexed
      obtain ⟨more, others, rfl⟩ := rest.first
      obtain ⟨place, chain⟩ := List.isChain_cons_cons.mp places
      have mem : last ∈ items := part (List.mem_append_right _ (List.mem_singleton_self last))
      exact List.isChain_cons_cons.mpr ⟨changes.resumes_place indexed mem matchers numMatchers lastInternalId results more
        place, ih kept.indexed chain⟩

/-- What was returned before a call: items once each, none of them ahead of the call, and all that the matchers meet of
the first items that are not ahead. -/
structure Returned (matchers : List UInt8) (numMatchers : Nat) (store : TheStorage) (first items : List IndexItem)
    (lastInternalId : Nat) (returned : List IndexItem) : Prop where
  indexed : store.Indexed items
  once : returned.Nodup
  old : ∀ item, item ∈ first ∨ item ∈ returned → item.internalId < store.storage.nextInternalId
  apart : ∀ item ∈ store.indexes.scanItems lastInternalId, item.meets matchers numMatchers = true → item ∉ returned
  all : ∀ item ∈ first, item ∈ items → item.meets matchers numMatchers = true → item ∉ returned →
    item ∈ store.indexes.scanItems lastInternalId

/-- A call adds its page to what was returned, if the next one resumes. -/
theorem Returned.page {first returned : List IndexItem} {lastInternalId : Nat}
    (before : Returned matchers numMatchers store first items lastInternalId returned) {ahead : List IndexItem}
    {last : IndexItem}
    (paged : pageOf matchers numMatchers 0 limit (store.indexes.scanItems lastInternalId) = ahead ++ [last])
    {after : TheStorage} (changes : store.Changes after) {results more : List UInt8}
    (resumes : Resumes matchers numMatchers ⟨store, lastInternalId, results⟩ ⟨after, last.internalId, more⟩) :
    ∃ later, Returned matchers numMatchers after first later last.internalId (returned ++ (ahead ++ [last])) := by
  have holds := before.indexed.holds
  obtain ⟨front, split, _⟩ := scanItems_suffix holds.consistent lastInternalId
  have scanned : ∀ item ∈ ahead ++ [last], item ∈ store.indexes.scanItems lastInternalId := fun item mem =>
    pageOf_sub.subset (paged ▸ mem)
  have inside : ∀ item ∈ ahead ++ [last], item ∈ items := fun item mem => by
    rw [split]
    exact List.mem_append_right _ (scanned item mem)
  have once := List.Nodup.of_map _ holds.ids
  rw [split, List.nodup_append] at once
  obtain ⟨later, kept⟩ := changes.later before.indexed
  have goesOn := kept.indexed.holds.consistent.scanItems_goesOn last.internalId
  -- an item that is stored at both calls is ahead of the next one when it was ahead of this one and is not in the page
  have crossed : ∀ item ∈ items, item ∈ later → item.meets matchers numMatchers = true →
      (item ∈ after.indexes.scanItems last.internalId ↔
        item ∈ store.indexes.scanItems lastInternalId ∧ item ∉ ahead ++ [last]) := by
    intro item known mem meets
    have passed := resumes (after.indexes.scanItems last.internalId)
    dsimp only at passed
    rw [kept.indexed.holds.consistent.listItems, holds.consistent.listItems] at passed
    have distinct := holds.ids
    have there := known
    rw [split] at distinct there
    have part := passed_iff distinct paged there meets
    rw [← split] at part
    rw [passed goesOn item known mem meets, part, not_or, not_not]
  have below : ∀ item, item ∈ first ∨ item ∈ returned ++ (ahead ++ [last]) →
      item.internalId < store.storage.nextInternalId := by
    intro item mem
    rcases mem with mem | mem
    · exact before.old item (Or.inl mem)
    · rcases List.mem_append.mp mem with mem | mem
      · exact before.old item (Or.inr mem)
      · exact holds.below item (inside item mem)
  have known : ∀ item, item ∈ first ∨ item ∈ returned ++ (ahead ++ [last]) → item ∈ later → item ∈ items :=
    fun item old mem => (kept.known mem).resolve_right (Nat.not_le.mpr (below item old))
  refine ⟨later, kept.indexed, ?_, fun item mem => (below item mem).trans_le kept.next, ?_, ?_⟩
  · rw [List.nodup_append]
    refine ⟨before.once, paged ▸ once.2.1.sublist pageOf_sub, ?_⟩
    rintro item known _ there rfl
    exact before.apart item (scanned item there) (meets_of_page (paged ▸ there)) known
  · intro item mem meets there
    obtain ⟨start, whole, _⟩ := scanItems_suffix kept.indexed.holds.consistent last.internalId
    have stored : item ∈ later := by
      rw [whole]
      exact List.mem_append_right _ mem
    obtain ⟨had, out⟩ := (crossed item (known item (Or.inr there) stored) stored meets).mp mem
    exact (List.mem_append.mp there).elim (before.apart item had meets) out
  · intro item mem stored meets missing
    obtain ⟨out, none⟩ := not_or.mp (missing ∘ List.mem_append.mpr)
    have had := known item (Or.inl mem) stored
    exact (crossed item had stored meets).mpr ⟨before.all item mem had meets out, none⟩

/-- The pages of a scan whose calls resume are disjoint, and in the end nothing is ahead. -/
theorem PagedScan.collects {lastInternalId : Nat} {calls : List ScanCall}
    (scan : PagedScan matchers numMatchers room limit store lastInternalId calls) (some : 1 ≤ limit)
    (resumes : calls.IsChain (Resumes matchers numMatchers)) {first returned : List IndexItem}
    (before : Returned matchers numMatchers store first items lastInternalId returned) :
    (returned ++ calls.flatMap ScanCall.items).Nodup ∧
      ∀ last ∈ calls.getLast?, ∀ item ∈ first, item ∈ last.store.indexes.listItems →
        item.meets matchers numMatchers = true → item ∈ returned ++ calls.flatMap ScanCall.items := by
  induction scan generalizing items returned with
  | @last store lastInternalId next run =>
      obtain ⟨results, _⟩ := scanCall_run before.indexed run
      have none := resultsOf_eq_nil results.symm
      rw [pageOf, List.drop_zero] at none
      have nothing :
          (store.indexes.scanItems lastInternalId).filter (fun item => item.meets matchers numMatchers) = [] :=
        (List.take_eq_nil_iff.mp none).resolve_left (Nat.ne_of_gt some)
      have returns : [ScanCall.mk store lastInternalId []].flatMap ScanCall.items = [] := rfl
      rw [returns, List.append_nil]
      refine ⟨before.once, ?_⟩
      intro last ends item old mem meets
      obtain rfl : ScanCall.mk store lastInternalId [] = last := Option.some_inj.mp ends
      rw [before.indexed.holds.consistent.listItems] at mem
      by_contra missing
      exact List.filter_eq_nil_iff.mp nothing item (before.all item old mem meets missing) meets
  | @page store after lastInternalId next results calls run full changes rest ih =>
      obtain ⟨ahead, last, paged, rfl, rfl, part⟩ := scanCall_page before.indexed run full
      obtain ⟨next, others, rfl⟩ := rest.first
      obtain ⟨resumed, chain⟩ := List.isChain_cons_cons.mp resumes
      obtain ⟨later, still⟩ := before.page paged changes resumed
      rw [List.flatMap_cons, scanCall_items before.indexed lastInternalId part, ← List.append_assoc,
        List.getLast?_cons_cons]
      exact ih chain still

/-- The calls of a scan of all stored items return each once, if they resume. -/
theorem PagedScan.returnsEachOnce {calls : List ScanCall} (scan : PagedScan matchers numMatchers room limit store 0 calls)
    (indexed : store.Indexed items) (some : 1 ≤ limit) (resumes : calls.IsChain (Resumes matchers numMatchers)) :
    ReturnsEachOnce matchers numMatchers calls := by
  have start : Returned matchers numMatchers store items items 0 [] :=
    ⟨indexed, List.nodup_nil, fun item mem => indexed.holds.below item (mem.resolve_right List.not_mem_nil),
      fun _ _ _ => List.not_mem_nil, fun item mem _ _ _ => by
        rw [indexed.holds.consistent.scanItems]
        exact mem⟩
  obtain ⟨once, all⟩ := scan.collects some resumes start
  obtain ⟨results, others, rfl⟩ := scan.first
  refine ⟨once, fun first starts last ends item mem => all last ends item ?_⟩
  rw [← Option.some_inj.mp starts, indexed.holds.consistent.listItems] at mem
  exact mem

/-- A scan returns each item once if its calls resume where the calls before them ended. -/
theorem pagedScan_returnsEachOnce {retentionSeconds : Int} {s : Nat} {debugBuild : Bool} {indices : List CString}
    (reached : TheStorageRun retentionSeconds s debugBuild indices store) (some : 1 ≤ limit) {calls : List ScanCall}
    (scan : PagedScan matchers numMatchers room limit store 0 calls)
    (resumes : calls.IsChain (Resumes matchers numMatchers)) : ReturnsEachOnce matchers numMatchers calls := by
  obtain ⟨_, items, indexed⟩ := reached.indexed
  exact scan.returnsEachOnce indexed some resumes

end

/-- What `storage_lookup_without_index` returns for all keys, one at a time. -/
def TheStorage.nextKey (store : TheStorage) (lastInternalId : Nat) : Option (Option Err × List UInt8 × Nat) :=
  (store.indexes.storageLookupWithoutIndex [] 0 1024 lastInternalId 1).toOption

theorem of_nextKey {store : TheStorage} {lastInternalId : Nat} {result : Option Err × List UInt8 × Nat}
    (next : store.nextKey lastInternalId = some result) :
    store.indexes.storageLookupWithoutIndex [] 0 1024 lastInternalId 1 = .ok result := by
  cases run : store.indexes.storageLookupWithoutIndex [] 0 1024 lastInternalId 1 with
  | ok found =>
      rw [TheStorage.nextKey, run] at next
      rw [Option.some_inj.mp next]
  | error failure =>
      rw [TheStorage.nextKey, run] at next
      cases next

/-- A key is written after the first page, and the next page has it. -/
theorem pagedScan_returnsEachOnce_written :
    ∃ store after, TheStorageRun 10 28 false [] store ∧ store.Changes after ∧
      ReturnsEachOnce [] 0 [⟨store, 0, [1, 0, 97]⟩, ⟨after, 1, [1, 0, 98]⟩, ⟨after, 2, []⟩] := by
  have passed : (TheStorage.initAndRun 10 28 nextAddress [.write [97] [(3#64, 7#64)] nextAddress]
      ⟨newStorage, Indexes.init false []⟩).passes (fun _ store =>
        store.nextKey 0 = some (none, [1, 0, 97], 1) ∧ store.indexes.listItems.map IndexItem.internalId = [1] ∧
        ((TheStorageOp.write [98] [(4#64, 7#64)] nextAddress).run store).passes fun _ after =>
          after.nextKey 1 = some (none, [1, 0, 98], 2) ∧ after.nextKey 2 = some (none, [], 2) ∧
          after.indexes.listItems.map IndexItem.internalId = [1, 2] ∧
          store.indexes.listItems ⊆ after.indexes.listItems) = true := by
    decide +kernel
  obtain ⟨_, store, run, checked⟩ := EStateM.Result.of_passes passed
  obtain ⟨one, ids, checked⟩ := of_decide_eq_true checked
  obtain ⟨_, after, write, checked⟩ := EStateM.Result.of_passes checked
  obtain ⟨two, last, laterIds, part⟩ := of_decide_eq_true checked
  obtain ⟨_, opened, start, run⟩ := EStateM.of_bind_ok run
  have reached : TheStorageRun 10 28 false [] store :=
    TheStorageRun.steps _ (.init _ _ start) (by simp [TheStorageOp.Valid, ValidKey, maxLfmSize]) run
  have valid : (TheStorageOp.write [98] [(4#64, 7#64)] nextAddress).Valid := by
    simp [TheStorageOp.Valid, ValidKey, maxLfmSize]
  have changes : store.Changes after := .step (.refl store) _ valid (fun _ _ same => by cases same) write
  obtain ⟨_, items, indexed⟩ := reached.indexed
  obtain ⟨later, kept⟩ := changes.later indexed
  have items_eq := indexed.holds.consistent.listItems
  have later_eq := kept.indexed.holds.consistent.listItems
  have first : Resumes [] 0 ⟨store, 0, [1, 0, 97]⟩ ⟨after, 1, [1, 0, 98]⟩ := by
    obtain ⟨item, mem, id⟩ := List.mem_map.mp (ids ▸ List.mem_singleton_self 1)
    rw [← id]
    exact changes.resumes indexed (items_eq ▸ mem) (part mem) (id ▸ one_ne_zero) [] 0 0 _ _
  have second : Resumes [] 0 ⟨after, 1, [1, 0, 98]⟩ ⟨after, 2, []⟩ := by
    obtain ⟨item, mem, id⟩ := List.mem_map.mp (laterIds ▸ List.mem_cons_of_mem 1 (List.mem_singleton_self 2))
    rw [← id]
    exact (TheStorage.Changes.refl after).resumes kept.indexed (later_eq ▸ mem) mem (id ▸ two_ne_zero) [] 0 1 _ _
  have scan : PagedScan [] 0 1024 1 store 0 [⟨store, 0, [1, 0, 97]⟩, ⟨after, 1, [1, 0, 98]⟩, ⟨after, 2, []⟩] :=
    .page (of_nextKey one) (List.cons_ne_nil _ _) changes
      (.page (of_nextKey two) (List.cons_ne_nil _ _) (.refl after) (.last (of_nextKey last)))
  exact ⟨store, after, reached, changes, pagedScan_returnsEachOnce reached le_rfl scan
    (List.isChain_cons_cons.mpr ⟨first, List.isChain_cons_cons.mpr ⟨second, List.isChain_singleton _⟩⟩)⟩

/-- A scan returns each item once if every later call finds its place. -/
theorem pagedScan_placesKept {matchers : List UInt8} {numMatchers room limit : Nat} {store : TheStorage}
    {retentionSeconds : Int} {s : Nat} {debugBuild : Bool} {indices : List CString}
    (reached : TheStorageRun retentionSeconds s debugBuild indices store) (some : 1 ≤ limit) {calls : List ScanCall}
    (scan : PagedScan matchers numMatchers room limit store 0 calls) (places : calls.IsChain KeepsPlace) :
    ReturnsEachOnce matchers numMatchers calls := by
  obtain ⟨_, items, indexed⟩ := reached.indexed
  exact scan.returnsEachOnce indexed some (scan.resumes indexed places)

/-- The cleaner deletes the item that the second page ended with, and the scan goes on behind the item before it. -/
theorem pagedScan_placesKept_deleted :
    ∃ store after, TheStorageRun 10 28 false [] store ∧ store.Changes after ∧
      after.indexes.listItems.map IndexItem.internalId = [1, 3] ∧
      ReturnsEachOnce [] 0
        [⟨store, 0, [1, 0, 97]⟩, ⟨store, 1, [1, 0, 98]⟩, ⟨after, 2, [1, 0, 99]⟩, ⟨after, 3, []⟩] := by
  have passed : (TheStorage.initAndRun 10 28 nextAddress
      [.write [97] [(30#64, 7#64)] nextAddress, .write [98] [(5#64, 7#64)] nextAddress,
        .write [99] [(30#64, 7#64)] nextAddress]
      ⟨newStorage, Indexes.init false []⟩).passes (fun _ store =>
        store.nextKey 0 = some (none, [1, 0, 97], 1) ∧ store.nextKey 1 = some (none, [1, 0, 98], 2) ∧
        ((TheStorageOp.clean 30).run store).passes fun _ after =>
          after.nextKey 2 = some (none, [1, 0, 99], 3) ∧ after.nextKey 3 = some (none, [], 3) ∧
          after.indexes.listItems.map IndexItem.internalId = [1, 3] ∧
          KeepsPlace ⟨store, 0, [1, 0, 97]⟩ ⟨store, 1, [1, 0, 98]⟩ ∧
          KeepsPlace ⟨store, 1, [1, 0, 98]⟩ ⟨after, 2, [1, 0, 99]⟩ ∧
          KeepsPlace ⟨after, 2, [1, 0, 99]⟩ ⟨after, 3, []⟩) = true := by
    decide +kernel
  obtain ⟨_, store, run, checked⟩ := EStateM.Result.of_passes passed
  obtain ⟨one, two, checked⟩ := of_decide_eq_true checked
  obtain ⟨_, after, clean, checked⟩ := EStateM.Result.of_passes checked
  obtain ⟨three, last, ids, first, second, third⟩ := of_decide_eq_true checked
  obtain ⟨_, opened, start, run⟩ := EStateM.of_bind_ok run
  have reached : TheStorageRun 10 28 false [] store :=
    TheStorageRun.steps _ (.init _ _ start) (by simp [TheStorageOp.Valid, ValidKey, maxLfmSize]) run
  have changes : store.Changes after :=
    .step (.refl store) (.clean 30) trivial (fun _ _ same => by cases same) clean
  have scan : PagedScan [] 0 1024 1 store 0
      [⟨store, 0, [1, 0, 97]⟩, ⟨store, 1, [1, 0, 98]⟩, ⟨after, 2, [1, 0, 99]⟩, ⟨after, 3, []⟩] :=
    .page (of_nextKey one) (List.cons_ne_nil _ _) (.refl store)
      (.page (of_nextKey two) (List.cons_ne_nil _ _) changes
        (.page (of_nextKey three) (List.cons_ne_nil _ _) (.refl after) (.last (of_nextKey last))))
  exact ⟨store, after, reached, changes, ids, pagedScan_placesKept reached le_rfl scan
    (List.isChain_cons_cons.mpr ⟨first, List.isChain_cons_cons.mpr ⟨second,
      List.isChain_cons_cons.mpr ⟨third, List.isChain_singleton _⟩⟩⟩)⟩

/-- The cleaner deletes the item that the first page ended with, and then the scan ends without the other item. -/
theorem pagedScan_firstDeleted :
    ∃ store calls, TheStorageRun 10 28 false [] store ∧ PagedScan [] 0 1024 1 store 0 calls ∧
      ¬ ReturnsEachOnce [] 0 calls := by
  have passed : (TheStorage.initAndRun 10 28 nextAddress
      [.write [97] [(5#64, 7#64)] nextAddress, .write [98] [(30#64, 7#64)] nextAddress]
      ⟨newStorage, Indexes.init false []⟩).passes (fun _ store =>
        store.nextKey 0 = some (none, [1, 0, 97], 1) ∧ ((TheStorageOp.clean 30).run store).passes fun _ after =>
          after.nextKey 1 = some (none, [], 1) ∧
          (∃ item ∈ store.indexes.listItems, item ∈ after.indexes.listItems ∧ item.meets [] 0 = true ∧
            item ∉ (ScanCall.mk store 0 [1, 0, 97]).items ++ (ScanCall.mk after 1 []).items)) = true := by
    decide +kernel
  obtain ⟨_, store, run, checked⟩ := EStateM.Result.of_passes passed
  obtain ⟨one, checked⟩ := of_decide_eq_true checked
  obtain ⟨_, after, clean, checked⟩ := EStateM.Result.of_passes checked
  obtain ⟨last, item, stored, still, meets, missing⟩ := of_decide_eq_true checked
  obtain ⟨_, opened, start, run⟩ := EStateM.of_bind_ok run
  have reached : TheStorageRun 10 28 false [] store :=
    TheStorageRun.steps _ (.init _ _ start) (by simp [TheStorageOp.Valid, ValidKey, maxLfmSize]) run
  have scan : PagedScan [] 0 1024 1 store 0 [⟨store, 0, [1, 0, 97]⟩, ⟨after, 1, []⟩] :=
    .page (of_nextKey one) (List.cons_ne_nil _ _)
      (.step (.refl store) (.clean 30) trivial (fun _ _ same => by cases same) clean) (.last (of_nextKey last))
  refine ⟨store, _, reached, scan, fun returns => missing ?_⟩
  have there := returns.all _ rfl _ rfl item stored still meets
  rw [List.flatMap_cons, List.flatMap_singleton] at there
  exact there

end Menoetius
