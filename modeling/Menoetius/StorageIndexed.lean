import Menoetius.StorageIndex

/-
This file shows that every tree of a storage holds the items of the list, each once and in order.
-/

namespace Menoetius
open SearchTree RbTree LinkedList

theorem nullstrcmp_eq (first second : Option CString) :
    nullstrcmp first second = compare (first.map CString.bytes) (second.map CString.bytes) := by
  cases first <;> cases second <;> rfl

/-- Each comparison is a comparison of values in an order. -/
instance storageItemCmp_trans (index : Nat) : Std.TransCmp (storageItemCmp index) := by
  match index with
  | 0 =>
      have same : storageItemCmp 0 = compareOn IndexItem.internalId := by
        funext a b
        rw [compareOn, Nat.compare_eq_ite_lt]
        rfl
      rw [same]
      infer_instance
  | 1 =>
      have same : storageItemCmp 1 =
          compareLex (compareOn fun item => item.keyBytes.length) (compareOn IndexItem.keyBytes) := by
        funext a b
        change (if a.keyBytes.length ≠ b.keyBytes.length then compare a.keyBytes.length b.keyBytes.length
          else compare a.keyBytes b.keyBytes) =
            (compare a.keyBytes.length b.keyBytes.length).then (compare a.keyBytes b.keyBytes)
        split
        next differ =>
          have other : compare a.keyBytes.length b.keyBytes.length ≠ .eq := fun equal =>
            differ (Std.LawfulEqCmp.eq_of_compare equal)
          revert other
          cases compare a.keyBytes.length b.keyBytes.length <;> simp
        next equal =>
          rw [Nat.compare_eq_eq.mpr (not_not.mp equal)]
          rfl
      rw [same]
      infer_instance
  | 2 =>
      have same : storageItemCmp 2 = compareOn fun item => item.keyString.map CString.bytes := by
        funext a b
        exact nullstrcmp_eq _ _
      rw [same]
      infer_instance
  | label + 3 =>
      have same : storageItemCmp (label + 3) = compareOn fun item => (item.value label).map CString.bytes := by
        funext a b
        exact nullstrcmp_eq _ _
      rw [same]
      infer_instance

/-- The order of a tree. -/
abbrev inOrder (index : Nat) : IndexItem → IndexItem → Prop := Before (storageItemCmp index) IndexItem.address

/-- Any item can be looked for in a tree. -/
theorem storageItemCmp_cut (index : Nat) (probe : IndexItem) : Cut (inOrder index) (storageItemCmp index probe) where
  lt := by
    rintro first second (less | ⟨equal, _⟩) side
    · exact Std.TransCmp.lt_trans side less
    · exact Std.TransCmp.lt_of_lt_of_eq side equal
  gt := by
    rintro first second (less | ⟨equal, _⟩) side
    · exact Std.TransCmp.gt_trans side (Std.OrientedCmp.gt_of_lt less)
    · exact Std.TransCmp.gt_of_gt_of_eq side (Std.OrientedCmp.eq_symm equal)

namespace Indexes

/-- The trees hold the items of the list, and the tree of internal ids holds the placeholders as well. -/
structure Consistent (store : Indexes) (items placeholders : List IndexItem) : Prop where
  count : store.roots.length = store.indices.length + numSpecialIndices
  list : store.list.Holds items
  indexed : ∀ index < store.roots.length, Indexed (storageItemCmp index) IndexItem.address (store.root index)
  perm : ∀ index < store.roots.length,
    (store.root index).toList.Perm (if index = internalIdIndex then items ++ placeholders else items)
  addresses : ((items ++ placeholders).map IndexItem.address).Nodup
  bounded : ∀ item ∈ items ++ placeholders, 0 < item.address ∧ item.address < 2 ^ 64
  keyed : ∀ item ∈ items, ∃ key, ValidKey key ∧ item.key = some key ∧
    store.indices.mapM (getKeyValue store.debugBuild (key ++ [0]) key.length) = .ok item.indexVal
  unkeyed : ∀ item ∈ placeholders, item.key = none

theorem init_consistent (debugBuild : Bool) (indices : List CString) : (init debugBuild indices).Consistent [] [] := by
  have leaf : ∀ index, (init debugBuild indices).root index = .leaf := by
    intro index
    rw [root, init, List.getD_eq_getElem?_getD]
    cases found : (List.replicate (indices.length + numSpecialIndices) (.leaf : RbTree IndexItem))[index]? with
    | none => rfl
    | some tree => exact (List.mem_replicate.mp (List.mem_of_getElem? found)).2
  refine ⟨by simp [init], Links.empty_holds, ?_, ?_, List.nodup_nil, nofun, nofun, nofun⟩
  · intro index _
    rw [leaf]
    exact Indexed.leaf
  · intro index _
    rw [leaf]
    split <;> exact List.Perm.refl _

theorem listAppend_run {list : Links IndexItem} {members : List IndexItem} (holds : list.Holds members)
    (p : IndexItem) : listAppend list p = .ok (list.append p) := by
  rw [listAppend, Links.append, holds.first, holds.last]
  rcases List.eq_nil_or_concat members with rfl | ⟨before, last, rfl⟩
  · rfl
  · have some : (before.concat last).head? ≠ none := by
      rw [List.concat_eq_append]
      simp
    have ending : list.next last = none := holds.next before last [] (List.concat_eq_append ..)
    rw [if_neg some, List.concat_eq_append, List.getLast?_concat]
    simp only [ending, ne_eq, not_true_eq_false, if_false]
    rfl

theorem listRemove_run {list : Links IndexItem} {before after : List IndexItem} {item : IndexItem}
    (holds : list.Holds (before ++ item :: after)) : listRemove list item = .ok (list.remove item) := by
  have first : ¬ (list.first = some item ∧ list.prev item ≠ none) := by
    rintro ⟨equal, other⟩
    rw [holds.first] at equal
    rw [holds.prev before item after rfl] at other
    cases before with
    | nil => exact other rfl
    | cons head tail =>
        cases equal
        exact absurd holds.nodup (by simp)
  have last : ¬ (list.last = some item ∧ list.next item ≠ none) := by
    rintro ⟨equal, other⟩
    rw [holds.last] at equal
    rw [holds.next before item after rfl] at other
    rcases List.eq_nil_or_concat after with rfl | ⟨inner, tail, rfl⟩
    · exact other rfl
    · rw [List.concat_eq_append, ← List.cons_append, ← List.append_assoc, List.getLast?_concat] at equal
      cases equal
      have nodup := holds.nodup
      rw [List.concat_eq_append, ← List.cons_append, ← List.append_assoc] at nodup
      exact (List.nodup_append.mp nodup).2.2 item (by simp) item List.mem_cons_self rfl
  rw [listRemove, if_neg first, if_neg last]
  rfl

/-- An address that `my_malloc` can return. -/
def Fresh (store : Indexes) (address : Nat) : Prop :=
  (0 < address ∧ address < 2 ^ 64) ∧ ∀ item ∈ (store.root internalIdIndex).toList, item.address ≠ address

section
variable {store : Indexes} {items placeholders : List IndexItem}

theorem Consistent.zero_lt (consistent : store.Consistent items placeholders) :
    internalIdIndex < store.roots.length := by
  rw [consistent.count, internalIdIndex, numSpecialIndices]
  omega

theorem Consistent.fresh (consistent : store.Consistent items placeholders) {address : Nat}
    (fresh : store.Fresh address) : ∀ item ∈ items ++ placeholders, item.address ≠ address := by
  intro item mem
  have perm := consistent.perm internalIdIndex consistent.zero_lt
  rw [if_pos rfl] at perm
  exact fresh.2 item (perm.mem_iff.mpr mem)

/-- The items of any tree are among those of the tree of internal ids. -/
theorem Consistent.mem_of_tree (consistent : store.Consistent items placeholders) {index : Nat}
    (inside : index < store.roots.length) {item : IndexItem} (mem : item ∈ (store.root index).toList) :
    item ∈ items ++ placeholders := by
  have there := (consistent.perm index inside).mem_iff.mp mem
  split at there
  · exact there
  · exact List.mem_append_left _ there

/-- An item that is added to a tree is one more of its items. -/
theorem sglibAdd_perm {index : Nat} {tree : RbTree IndexItem}
    (indexed : Indexed (storageItemCmp index) IndexItem.address tree) {item : IndexItem}
    (fresh : ∀ other ∈ tree.toList, item.address ≠ other.address) :
    Indexed (storageItemCmp index) IndexItem.address (sglibAdd (storageItemCmp index) IndexItem.address tree item) ∧
      (sglibAdd (storageItemCmp index) IndexItem.address tree item).toList.Perm (item :: tree.toList) := by
  obtain ⟨after, front, back, split, list⟩ := sglibAdd_run indexed fresh
  refine ⟨after, ?_⟩
  rw [list, split]
  exact List.perm_middle

theorem root_mapIdx (f : Nat → RbTree IndexItem → RbTree IndexItem) {index : Nat} (inside : index < store.roots.length) :
    (store.roots.mapIdx f).getD index .leaf = f index (store.root index) := by
  rw [root, List.getD_eq_getElem?_getD, List.getD_eq_getElem?_getD, List.getElem?_mapIdx,
    List.getElem?_eq_getElem inside]
  rfl

/-- A new item is one more of the list and of each tree. -/
theorem Consistent.insert (consistent : store.Consistent items placeholders) {item : IndexItem}
    (fresh : store.Fresh item.address)
    (keyed : ∃ key, ValidKey key ∧ item.key = some key ∧
      store.indices.mapM (getKeyValue store.debugBuild (key ++ [0]) key.length) = .ok item.indexVal) :
    ({ store with
        roots := store.roots.mapIdx fun index root => sglibAdd (storageItemCmp index) IndexItem.address root item
        list := store.list.append item } : Indexes).Consistent (items ++ [item]) placeholders := by
  have apart := consistent.fresh fresh
  have notIn : item ∉ items := fun mem => apart item (List.mem_append_left _ mem) rfl
  have added : ∀ index < store.roots.length, _ := fun index inside =>
    @sglibAdd_perm index (store.root index) (consistent.indexed index inside) item fun other mem equal =>
      apart other (consistent.mem_of_tree inside mem) equal.symm
  have order : (items ++ [item] ++ placeholders).Perm (item :: (items ++ placeholders)) := by
    rw [List.append_assoc]
    exact List.perm_middle
  refine ⟨?_, consistent.list.append notIn, ?_, ?_, ?_, ?_, ?_, consistent.unkeyed⟩
  · change (store.roots.mapIdx _).length = _
    rw [List.length_mapIdx, consistent.count]
  · intro index inside
    change index < (store.roots.mapIdx _).length at inside
    rw [List.length_mapIdx] at inside
    change Indexed _ _ ((store.roots.mapIdx _).getD index RbTree.leaf)
    rw [root_mapIdx _ inside]
    exact (added index inside).1
  · intro index inside
    change index < (store.roots.mapIdx _).length at inside
    rw [List.length_mapIdx] at inside
    change ((store.roots.mapIdx _).getD index RbTree.leaf).toList.Perm _
    rw [root_mapIdx _ inside]
    refine (added index inside).2.trans (((consistent.perm index inside).cons _).trans ?_)
    split
    · exact order.symm
    · exact (List.perm_append_singleton _ _).symm
  · refine (order.map IndexItem.address).nodup_iff.mpr (List.nodup_cons.mpr ⟨?_, consistent.addresses⟩)
    intro mem
    obtain ⟨other, there, equal⟩ := List.mem_map.mp mem
    exact apart other there equal
  · intro other mem
    rcases List.mem_cons.mp (order.mem_iff.mp mem) with rfl | there
    · exact fresh.1
    · exact consistent.bounded other there
  · intro other mem
    rcases List.mem_append.mp mem with there | single
    · exact consistent.keyed other there
    · cases List.mem_singleton.mp single
      exact keyed

/-- The item that is made for a key, and the trees with it. -/
theorem storageInsertItem_eq (consistent : store.Consistent items placeholders) {key : List UInt8}
    {indexVal : List (Option CString)}
    (values : store.indices.mapM (getKeyValue store.debugBuild (key ++ [0]) key.length) = .ok indexVal)
    (internalId address : Nat) :
    store.storageInsertItem (some key) internalId address =
      .ok (⟨address, internalId, some key, indexVal⟩,
        { store with
          roots := store.roots.mapIdx fun index root =>
            sglibAdd (storageItemCmp index) IndexItem.address root ⟨address, internalId, some key, indexVal⟩
          list := store.list.append ⟨address, internalId, some key, indexVal⟩ }) := by
  have append := listAppend_run consistent.list ⟨address, internalId, some key, indexVal⟩
  rw [storageInsertItem, storageItemNew, values]
  change (listAppend store.list ⟨address, internalId, some key, indexVal⟩ >>= _) = _
  rw [append]
  rfl

/-- A new item with a key is put into every tree and at the end of the list. -/
theorem storageInsertItem_keyed (consistent : store.Consistent items placeholders) {key : List UInt8}
    (valid : ValidKey key) {internalId address : Nat} (fresh : store.Fresh address) {item : IndexItem} {after : Indexes}
    (run : store.storageInsertItem (some key) internalId address = .ok (item, after)) :
    after.Consistent (items ++ [item]) placeholders ∧ item.key = some key ∧ item.internalId = internalId ∧
      item.address = address ∧ after = { store with roots := after.roots, list := after.list } := by
  cases values : store.indices.mapM (getKeyValue store.debugBuild (key ++ [0]) key.length) with
  | error failure =>
      rw [storageInsertItem, storageItemNew, values] at run
      cases run
  | ok indexVal =>
      rw [storageInsertItem_eq consistent values] at run
      cases run
      have keyed : ∃ bytes, ValidKey bytes ∧ some key = some bytes ∧
          store.indices.mapM (getKeyValue store.debugBuild (bytes ++ [0]) bytes.length) = .ok indexVal :=
        ⟨key, valid, rfl, values⟩
      exact ⟨@Consistent.insert store items placeholders consistent ⟨address, internalId, some key, indexVal⟩ fresh keyed,
        rfl, rfl, rfl, rfl⟩

theorem root_set (index : Nat) (tree : RbTree IndexItem) (inside : internalIdIndex < store.roots.length) :
    (store.roots.set internalIdIndex tree).getD index .leaf =
      if index = internalIdIndex then tree else store.root index := by
  rw [root, List.getD_eq_getElem?_getD, List.getD_eq_getElem?_getD, List.getElem?_set]
  split
  next equal => rw [if_pos equal.symm]; rfl
  next other => rw [if_neg fun equal => other equal.symm]

/-- Only the tree of internal ids changes. -/
theorem Consistent.set_ids (consistent : store.Consistent items placeholders) {tree : RbTree IndexItem}
    (indexed : Indexed (storageItemCmp internalIdIndex) IndexItem.address tree) {others : List IndexItem}
    (perm : tree.toList.Perm (items ++ others)) (addresses : ((items ++ others).map IndexItem.address).Nodup)
    (bounded : ∀ item ∈ items ++ others, 0 < item.address ∧ item.address < 2 ^ 64)
    (unkeyed : ∀ item ∈ others, item.key = none) :
    ({ store with roots := store.roots.set internalIdIndex tree } : Indexes).Consistent items others := by
  refine ⟨?_, consistent.list, ?_, ?_, addresses, bounded, consistent.keyed, unkeyed⟩
  · change (store.roots.set _ _).length = _
    rw [List.length_set, consistent.count]
  · intro index inside
    change index < (store.roots.set _ _).length at inside
    rw [List.length_set] at inside
    change Indexed _ _ ((store.roots.set _ _).getD index .leaf)
    rw [root_set index tree consistent.zero_lt]
    split
    next equal => rw [equal]; exact indexed
    next => exact consistent.indexed index inside
  · intro index inside
    change index < (store.roots.set _ _).length at inside
    rw [List.length_set] at inside
    change ((store.roots.set _ _).getD index .leaf).toList.Perm _
    rw [root_set index tree consistent.zero_lt]
    split
    next => exact perm
    next other =>
      have same := consistent.perm index inside
      rwa [if_neg other] at same

/-- A placeholder is put into the tree of internal ids. -/
theorem storageInsertItem_unkeyed (consistent : store.Consistent items placeholders) {internalId address : Nat}
    (fresh : store.Fresh address) :
    ∃ item after, store.storageInsertItem none internalId address = .ok (item, after) ∧
      after.Consistent items (item :: placeholders) ∧ item.key = none ∧ item.internalId = internalId ∧
      after = { store with roots := after.roots } := by
  have apart := consistent.fresh fresh
  obtain ⟨indexed, added⟩ := @sglibAdd_perm internalIdIndex (store.root internalIdIndex)
    (consistent.indexed _ consistent.zero_lt) ⟨address, internalId, none, []⟩ fun other mem equal =>
      apart other (consistent.mem_of_tree consistent.zero_lt mem) equal.symm
  have perm := consistent.perm internalIdIndex consistent.zero_lt
  rw [if_pos rfl] at perm
  have order : (items ++ ⟨address, internalId, none, []⟩ :: placeholders).Perm
      (⟨address, internalId, none, []⟩ :: (items ++ placeholders)) := List.perm_middle
  refine ⟨_, _, rfl, consistent.set_ids indexed (added.trans ((perm.cons _).trans order.symm)) ?_ ?_ ?_, rfl, rfl, rfl⟩
  · refine (order.map IndexItem.address).nodup_iff.mpr (List.nodup_cons.mpr ⟨?_, consistent.addresses⟩)
    intro mem
    obtain ⟨other, there, equal⟩ := List.mem_map.mp mem
    exact apart other there equal
  · intro other mem
    rcases List.mem_cons.mp (order.mem_iff.mp mem) with rfl | there
    · exact fresh.1
    · exact consistent.bounded other there
  · exact List.forall_mem_cons.mpr ⟨rfl, consistent.unkeyed⟩

theorem sglibDelete_perm {index : Nat} {tree : RbTree IndexItem}
    (indexed : Indexed (storageItemCmp index) IndexItem.address tree) {item : IndexItem} (member : item ∈ tree.toList) :
    ∃ after, sglibDelete (storageItemCmp index) IndexItem.address tree item = .ok after ∧
      Indexed (storageItemCmp index) IndexItem.address after ∧ tree.toList.Perm (item :: after.toList) := by
  obtain ⟨after, run, still, front, back, split, list⟩ := sglibDelete_run indexed member
  refine ⟨after, run, still, ?_⟩
  rw [split, list]
  exact List.perm_middle

/-- The item leaves every tree. -/
theorem deleteFromRoots_run {item : IndexItem} {roots : List (RbTree IndexItem)} {start : Nat}
    (indexed : ∀ index < roots.length,
      Indexed (storageItemCmp (start + index)) IndexItem.address (roots.getD index .leaf))
    (member : ∀ index < roots.length, item ∈ (roots.getD index .leaf).toList) :
    ∃ after, deleteFromRoots item start roots = .ok after ∧ after.length = roots.length ∧
      ∀ index < roots.length,
        Indexed (storageItemCmp (start + index)) IndexItem.address (after.getD index .leaf) ∧
          (roots.getD index .leaf).toList.Perm (item :: (after.getD index .leaf).toList) := by
  induction roots generalizing start with
  | nil => exact ⟨[], rfl, rfl, nofun⟩
  | cons tree rest ih =>
      obtain ⟨first, run, still, perm⟩ := sglibDelete_perm (indexed 0 (Nat.succ_pos _)) (member 0 (Nat.succ_pos _))
      have later : ∀ index < rest.length,
          Indexed (storageItemCmp (start + 1 + index)) IndexItem.address (rest.getD index .leaf) := by
        intro index inside
        rw [Nat.add_right_comm]
        exact indexed (index + 1) (Nat.succ_lt_succ inside)
      obtain ⟨after, deleted, length, holds⟩ := ih later fun index inside => member (index + 1) (Nat.succ_lt_succ inside)
      refine ⟨first :: after, ?_, by rw [List.length_cons, length, List.length_cons], ?_⟩
      · change (sglibDelete (storageItemCmp start) IndexItem.address tree item >>= _) = _
        change sglibDelete (storageItemCmp start) IndexItem.address tree item = _ at run
        rw [run]
        change (deleteFromRoots item (start + 1) rest >>= _) = _
        rw [deleted]
        rfl
      · intro index inside
        cases index with
        | zero => exact ⟨still, perm⟩
        | succ index =>
            have next := holds index (Nat.lt_of_succ_lt_succ inside)
            rw [Nat.add_right_comm] at next
            exact next

/-- An item of the list leaves it and all trees. -/
theorem storageDeleteItem_run {front back : List IndexItem} {item : IndexItem}
    (consistent : store.Consistent (front ++ item :: back) placeholders) :
    ∃ after, store.storageDeleteItem item = .ok after ∧ after.Consistent (front ++ back) placeholders ∧
      after = { store with roots := after.roots, list := after.list } := by
  have member : ∀ index < store.roots.length, item ∈ (store.root index).toList := by
    intro index inside
    refine (consistent.perm index inside).mem_iff.mpr ?_
    split <;> simp
  have indexed : ∀ index < store.roots.length,
      Indexed (storageItemCmp (0 + index)) IndexItem.address (store.roots.getD index .leaf) := by
    intro index inside
    rw [Nat.zero_add]
    exact consistent.indexed index inside
  obtain ⟨roots, run, length, holds⟩ := deleteFromRoots_run indexed member
  have order : (front ++ item :: back ++ placeholders).Perm (item :: (front ++ back ++ placeholders)) := by
    rw [List.append_assoc, List.append_assoc, List.cons_append]
    exact List.perm_middle
  refine ⟨{ store with roots, list := store.list.remove item }, ?_, ⟨?_, consistent.list.remove, ?_, ?_, ?_, ?_, ?_, ?_⟩,
    rfl⟩
  · rw [storageDeleteItem, listRemove_run consistent.list]
    change (deleteFromRoots item 0 store.roots >>= _) = _
    rw [run]
    rfl
  · exact length.trans consistent.count
  · intro index inside
    have still := (holds index (length ▸ inside)).1
    rwa [Nat.zero_add] at still
  · intro index inside
    have inside : index < store.roots.length := length ▸ inside
    have whole := (holds index inside).2.symm.trans (consistent.perm index inside)
    change (roots.getD index .leaf).toList.Perm _
    split
    next ids =>
      rw [if_pos ids] at whole
      exact (whole.trans order).cons_inv
    next other =>
      rw [if_neg other] at whole
      exact (whole.trans List.perm_middle).cons_inv
  · have nodup := (order.map IndexItem.address).nodup_iff.mp consistent.addresses
    exact (List.nodup_cons.mp nodup).2
  · intro other mem
    exact consistent.bounded other (order.mem_iff.mpr (List.mem_cons_of_mem _ mem))
  · intro other mem
    refine consistent.keyed other (List.perm_middle.mem_iff.mpr (List.mem_cons_of_mem _ mem))
  · exact consistent.unkeyed

/-- The search ends at an item that equals the probe, if there is one. -/
theorem sglibFindMember_iff {index : Nat} {tree : RbTree IndexItem}
    (indexed : Indexed (storageItemCmp index) IndexItem.address tree) (probe : IndexItem) :
    (∀ item, sglibFindMember (storageItemCmp index probe) tree = some item →
      item ∈ tree.toList ∧ storageItemCmp index probe item = .eq) ∧
    (sglibFindMember (storageItemCmp index probe) tree = none →
      ∀ item ∈ tree.toList, storageItemCmp index probe item ≠ .eq) := by
  rw [sglibFindMember]
  cases found : tree.seek (storageItemCmp index probe) with
  | leaf =>
      refine ⟨nofun, fun _ item mem equal => ?_⟩
      have none := equals_of_seek_leaf (storageItemCmp_cut index probe) indexed.sorted found
      have here : item ∈ tree.equals (storageItemCmp index probe) := List.mem_filter.mpr ⟨mem, by simpa using equal⟩
      rw [none] at here
      cases here
  | node color left item right =>
      refine ⟨?_, nofun⟩
      rintro other same
      cases same
      have part := (seek_part (storageItemCmp index probe) tree).1
      rw [found] at part
      exact ⟨part.subset (by simp), seek_root found⟩

theorem Consistent.findId (consistent : store.Consistent items placeholders) {internalId : Nat} {item : IndexItem}
    (found : store.findId internalId = some item) : item ∈ items ++ placeholders ∧ item.internalId = internalId := by
  obtain ⟨mem, equal⟩ := (sglibFindMember_iff (consistent.indexed _ consistent.zero_lt) _).1 item found
  refine ⟨consistent.mem_of_tree consistent.zero_lt mem, ?_⟩
  change (if internalId < item.internalId then Ordering.lt else if item.internalId < internalId then .gt else .eq) = .eq at equal
  split at equal
  · cases equal
  · split at equal
    · cases equal
    · omega

theorem Consistent.findId_none (consistent : store.Consistent items placeholders) {internalId : Nat}
    (missing : store.findId internalId = none) : ∀ item ∈ items ++ placeholders, item.internalId ≠ internalId := by
  intro item mem
  have perm := consistent.perm internalIdIndex consistent.zero_lt
  rw [if_pos rfl] at perm
  have differ := (sglibFindMember_iff (consistent.indexed _ consistent.zero_lt) _).2 missing item (perm.mem_iff.mpr mem)
  rintro rfl
  apply differ
  change (if item.internalId < item.internalId then Ordering.lt
    else if item.internalId < item.internalId then .gt else .eq) = .eq
  rw [if_neg (Nat.lt_irrefl _), if_neg (Nat.lt_irrefl _)]

/-- An item equals the one to find if and only if it has the key. -/
theorem keyToFind_iff (key : List UInt8) (item : IndexItem) :
    storageItemCmp lfmIndex (keyToFind key) item = .eq ↔ item.keyBytes = key := by
  change (if key.length ≠ item.keyBytes.length then compare key.length item.keyBytes.length
    else compare key item.keyBytes) = .eq ↔ _
  split
  next differ =>
    refine iff_of_false (fun equal => differ (Nat.compare_eq_eq.mp equal)) ?_
    rintro rfl
    exact differ rfl
  next => exact Std.LawfulEqCmp.compare_eq_iff_eq.trans eq_comm

theorem Consistent.lfm_lt (consistent : store.Consistent items placeholders) : lfmIndex < store.roots.length := by
  rw [consistent.count, lfmIndex, numSpecialIndices]
  omega

theorem Consistent.keyBytes (consistent : store.Consistent items placeholders) {item : IndexItem} (mem : item ∈ items) :
    item.key = some item.keyBytes ∧ ValidKey item.keyBytes := by
  obtain ⟨key, valid, named, _⟩ := consistent.keyed item mem
  rw [IndexItem.keyBytes, named]
  exact ⟨rfl, valid⟩

/-- The search for a key ends at an item with the key, if the list has one. -/
theorem Consistent.findKey_cases (consistent : store.Consistent items placeholders) (key : List UInt8) :
    (∃ item ∈ items, store.findKey key = some item ∧ item.key = some key) ∨
      (store.findKey key = none ∧ ∀ item ∈ items, item.key ≠ some key) := by
  have perm := consistent.perm lfmIndex consistent.lfm_lt
  rw [if_neg (by decide : ¬ lfmIndex = internalIdIndex)] at perm
  obtain ⟨found, missing⟩ := sglibFindMember_iff (consistent.indexed lfmIndex consistent.lfm_lt) (keyToFind key)
  cases result : store.findKey key with
  | some item =>
      obtain ⟨mem, equal⟩ := found item result
      have there := perm.mem_iff.mp mem
      refine Or.inl ⟨item, there, rfl, ?_⟩
      rw [(consistent.keyBytes there).1, (keyToFind_iff key item).mp equal]
  | none =>
      refine Or.inr ⟨rfl, fun item mem named => missing result item (perm.mem_iff.mpr mem) ?_⟩
      rw [keyToFind_iff, IndexItem.keyBytes, named]
      rfl

/-- A placeholder is replaced by an item with the key, at the end of the list. -/
theorem storageAttachKeyToItem_cases (consistent : store.Consistent items placeholders) {key : List UInt8}
    (valid : ValidKey key) {internalId address : Nat} (fresh : store.Fresh address) {after : Indexes}
    (run : store.storageAttachKeyToItem key internalId address = .ok after) :
    after = { store with roots := after.roots, list := after.list } ∧
      ((∀ item ∈ items ++ placeholders, item.internalId ≠ internalId) ∧ after.Consistent items placeholders ∨
        ∃ front p back item, placeholders = front ++ p :: back ∧ p.internalId = internalId ∧
          after.Consistent (items ++ [item]) (front ++ back) ∧ item.key = some key ∧ item.internalId = internalId) := by
  rw [storageAttachKeyToItem] at run
  cases found : store.findId internalId with
  | none =>
      rw [found] at run
      cases run
      exact ⟨rfl, Or.inl ⟨consistent.findId_none found, consistent⟩⟩
  | some p =>
      rw [found] at run
      dsimp only at run
      by_cases keyed : p.key = none
      swap
      · rw [if_pos keyed] at run
        cases run
      rw [if_neg (not_not.mpr keyed)] at run
      obtain ⟨there, numbered⟩ := consistent.findId found
      have placeholder : p ∈ placeholders := by
        rcases List.mem_append.mp there with item | other
        · obtain ⟨bytes, _, some, _⟩ := consistent.keyed p item
          rw [some] at keyed
          cases keyed
        · exact other
      obtain ⟨front, back, rfl⟩ := List.append_of_mem placeholder
      have perm := consistent.perm internalIdIndex consistent.zero_lt
      rw [if_pos rfl] at perm
      obtain ⟨tree, deleted, indexed, removed⟩ :=
        sglibDelete_perm (consistent.indexed _ consistent.zero_lt) (perm.mem_iff.mpr there)
      have order : (items ++ (front ++ p :: back)).Perm (p :: (items ++ (front ++ back))) := by
        rw [← List.append_assoc, ← List.append_assoc]
        exact List.perm_middle
      have rest : tree.toList.Perm (items ++ (front ++ back)) := ((removed.symm.trans perm).trans order).cons_inv
      have without := consistent.set_ids indexed rest
        (List.nodup_cons.mp ((order.map IndexItem.address).nodup_iff.mp consistent.addresses)).2
        (fun item mem => consistent.bounded item (order.mem_iff.mpr (List.mem_cons_of_mem _ mem)))
        (fun item mem => consistent.unkeyed item (List.perm_middle.mem_iff.mpr (List.mem_cons_of_mem _ mem)))
      rw [deleted, keyOf_valid valid] at run
      change (storageInsertItem { store with roots := store.roots.set internalIdIndex tree } (some key) internalId address
        >>= fun result => pure result.2) = _ at run
      have still : ({ store with roots := store.roots.set internalIdIndex tree } : Indexes).Fresh address := by
        refine ⟨fresh.1, fun item mem => ?_⟩
        change item ∈ ((store.roots.set internalIdIndex tree).getD internalIdIndex .leaf).toList at mem
        rw [root_set _ _ consistent.zero_lt, if_pos rfl] at mem
        exact fresh.2 item (removed.mem_iff.mpr (List.mem_cons_of_mem _ mem))
      cases inserted : storageInsertItem { store with roots := store.roots.set internalIdIndex tree } (some key) internalId
          address with
      | error failure =>
          rw [inserted] at run
          cases run
      | ok result =>
          rw [inserted] at run
          cases run
          obtain ⟨done, named, id, _, same⟩ := storageInsertItem_keyed without valid still inserted
          exact ⟨same, Or.inr ⟨front, p, back, result.1, rfl, numbered, done, named, id⟩⟩

theorem Consistent.listItems (consistent : store.Consistent items placeholders) : store.listItems = items := by
  have perm := consistent.perm internalIdIndex consistent.zero_lt
  rw [if_pos rfl] at perm
  have length := perm.length_eq
  rw [List.length_append] at length
  exact consistent.list.walk (by omega)

end

/-- The trees that the calls on a storage lead to. The flag tells whether `storage_init` has returned. Every restart
begins anew, with blocks and keys in any order. -/
inductive Reached (debugBuild : Bool) (indices : List CString) : Bool → Indexes → Prop
  | init : Reached debugBuild indices false (init debugBuild indices)
  | block {store after : Indexes} (earlier : Reached debugBuild indices false store) (internalId : Nat) {address : Nat}
      (fresh : store.Fresh address) (run : store.storagePlaceholder internalId address = .ok after) :
      Reached debugBuild indices false after
  | key {store after : Indexes} (earlier : Reached debugBuild indices false store) {key : List UInt8}
      (valid : ValidKey key) (internalId : Nat) {address : Nat} (fresh : store.Fresh address)
      (run : store.storageLoadKey key internalId address = .ok after) : Reached debugBuild indices false after
  | loaded {store : Indexes} (earlier : Reached debugBuild indices false store)
      (known : ∀ item ∈ (store.root internalIdIndex).toList, item.key ≠ none) : Reached debugBuild indices true store
  | get {store after : Indexes} (earlier : Reached debugBuild indices true store) {key : List UInt8}
      (valid : ValidKey key) (insert : Bool) {address : Nat} (fresh : store.Fresh address) {item : IndexItem}
      (run : store.storageGetItem key insert address = .ok (item, after)) : Reached debugBuild indices true after
  | delete {store after : Indexes} (earlier : Reached debugBuild indices true store) {item : IndexItem}
      (member : item ∈ store.listItems) (run : store.storageDeleteItem item = .ok after) :
      Reached debugBuild indices true after

theorem Consistent.with_next {store : Indexes} {items placeholders : List IndexItem}
    (consistent : store.Consistent items placeholders) (nextInternalId : Nat) :
    ({ store with nextInternalId } : Indexes).Consistent items placeholders :=
  ⟨consistent.count, consistent.list, consistent.indexed, consistent.perm, consistent.addresses, consistent.bounded,
    consistent.keyed, consistent.unkeyed⟩

section
variable {store : Indexes} {items placeholders : List IndexItem}

/-- A placeholder is made for a block of an unknown item. -/
theorem storagePlaceholder_cases (consistent : store.Consistent items placeholders) {internalId address : Nat}
    (fresh : store.Fresh address) {after : Indexes} (run : store.storagePlaceholder internalId address = .ok after) :
    after = { store with roots := after.roots } ∧
      ((∃ item ∈ items ++ placeholders, item.internalId = internalId) ∧ after.Consistent items placeholders ∨
        (∀ item ∈ items ++ placeholders, item.internalId ≠ internalId) ∧
          ∃ p, p.internalId = internalId ∧ after.Consistent items (p :: placeholders)) := by
  rw [storagePlaceholder] at run
  cases found : store.findId internalId with
  | some item =>
      rw [found] at run
      cases run
      exact ⟨rfl, Or.inl ⟨⟨item, consistent.findId found⟩, consistent⟩⟩
  | none =>
      rw [found] at run
      obtain ⟨item, grown, inserted, kept, _, numbered, same⟩ := @storageInsertItem_unkeyed store items placeholders
        consistent internalId address fresh
      change (storageInsertItem store none internalId address >>= fun result => pure result.2) = _ at run
      rw [inserted] at run
      cases run
      exact ⟨same, Or.inr ⟨consistent.findId_none found, item, numbered, kept⟩⟩

theorem storageGetItem_keeps (consistent : store.Consistent items placeholders) {key : List UInt8}
    (valid : ValidKey key) {insert : Bool} {address : Nat} (fresh : store.Fresh address) {item : IndexItem}
    {after : Indexes} (run : store.storageGetItem key insert address = .ok (item, after)) :
    (after = store ∧ store.findKey key = some item) ∨
      (store.findKey key = none ∧ after.Consistent (items ++ [item]) placeholders ∧ item.key = some key ∧
        item.internalId = store.nextInternalId ∧ item.address = address ∧
        after.nextInternalId = (store.nextInternalId + 1) % 2 ^ 64 ∧ after.indices = store.indices ∧
        after.debugBuild = store.debugBuild) := by
  rw [storageGetItem] at run
  cases found : store.findKey key with
  | some other =>
      rw [found] at run
      cases run
      exact Or.inl ⟨rfl, rfl⟩
  | none =>
      rw [found] at run
      cases insert with
      | false => cases run
      | true =>
          dsimp only at run
          have some : ¬ key.length = 0 := by
            have := valid.1
            omega
          rw [if_pos rfl, if_neg some, keyOf_valid valid] at run
          cases inserted : storageInsertItem store (.some key) store.nextInternalId address with
          | error failure =>
              rw [inserted] at run
              cases run
          | ok result =>
              rw [inserted] at run
              obtain ⟨kept, named, numbered, placed, same⟩ := storageInsertItem_keyed consistent valid fresh inserted
              change (if store.nextInternalId + 1 = 2 ^ 63 then _ else _) = _ at run
              split at run
              · cases run
              · cases run
                refine Or.inr ⟨rfl, kept.with_next _, named, numbered, placed, rfl, ?_, ?_⟩
                · change result.2.indices = _
                  rw [same]
                · change result.2.debugBuild = _
                  rw [same]

end

/-- The trees and the list agree, and after the start no item is without a key. -/
def Agrees (debugBuild : Bool) (indices : List CString) (ready : Bool) (store : Indexes) : Prop :=
  store.indices = indices ∧ store.debugBuild = debugBuild ∧
    ∃ placeholders, store.Consistent store.listItems placeholders ∧ (ready = true → placeholders = [])

theorem Agrees.of_consistent {store : Indexes} {items placeholders : List IndexItem} {debugBuild : Bool}
    {indices : List CString} {ready : Bool} (config : store.indices = indices ∧ store.debugBuild = debugBuild)
    (consistent : store.Consistent items placeholders) (none : ready = true → placeholders = []) :
    Agrees debugBuild indices ready store := by
  refine ⟨config.1, config.2, placeholders, ?_, none⟩
  rw [consistent.listItems]
  exact consistent

/-- The trees and the list agree in every state that is reached. -/
theorem Reached.agrees {debugBuild : Bool} {indices : List CString} {ready : Bool} {store : Indexes}
    (reached : Reached debugBuild indices ready store) : Agrees debugBuild indices ready store := by
  induction reached with
  | init => exact .of_consistent ⟨rfl, rfl⟩ (init_consistent debugBuild indices) nofun
  | block earlier internalId fresh run ih =>
      obtain ⟨named, build, placeholders, consistent, _⟩ := ih
      obtain ⟨same, ⟨_, kept⟩ | ⟨_, _, _, kept⟩⟩ := storagePlaceholder_cases consistent fresh run
      all_goals
        refine .of_consistent ?_ kept nofun
        rw [same]
        exact ⟨named, build⟩
  | @key store after earlier key valid internalId address fresh run ih =>
      obtain ⟨named, build, placeholders, consistent, _⟩ := ih
      rw [storageLoadKey] at run
      split at run
      · cases run
      · have started := consistent.with_next
          (if store.nextInternalId ≤ internalId then (internalId + 1) % 2 ^ 64 else store.nextInternalId)
        obtain ⟨same, ⟨_, kept⟩ | ⟨_, _, _, _, _, _, kept, _⟩⟩ := storageAttachKeyToItem_cases started valid fresh run
        all_goals
          refine .of_consistent ?_ kept nofun
          rw [same]
          exact ⟨named, build⟩
  | loaded earlier known ih =>
      obtain ⟨named, build, placeholders, consistent, _⟩ := ih
      refine .of_consistent ⟨named, build⟩ consistent fun _ => List.eq_nil_iff_forall_not_mem.mpr fun item mem => ?_
      have perm := consistent.perm internalIdIndex consistent.zero_lt
      rw [if_pos rfl] at perm
      exact known item (perm.mem_iff.mpr (List.mem_append_right _ mem)) (consistent.unkeyed item mem)
  | get earlier valid insert fresh run ih =>
      obtain ⟨named, build, placeholders, consistent, none⟩ := ih
      rcases storageGetItem_keeps consistent valid fresh run with ⟨rfl, _⟩ | ⟨_, kept, _, _, _, _, same, built⟩
      · exact ⟨named, build, placeholders, consistent, none⟩
      · exact .of_consistent ⟨same.trans named, built.trans build⟩ kept none
  | @delete store after earlier item member run ih =>
      obtain ⟨named, build, placeholders, consistent, none⟩ := ih
      obtain ⟨front, back, split⟩ := List.append_of_mem member
      rw [split] at consistent
      obtain ⟨result, done, kept, same⟩ := storageDeleteItem_run consistent
      rw [done] at run
      cases run
      refine .of_consistent ?_ kept none
      rw [same]
      exact ⟨named, build⟩

/-- There are fewer items than addresses. -/
theorem Consistent.length_lt {store : Indexes} {items placeholders : List IndexItem}
    (consistent : store.Consistent items placeholders) : (items ++ placeholders).length < 2 ^ 64 := by
  have inside : ((items ++ placeholders).map IndexItem.address).toFinset ⊆ Finset.Ico 1 (2 ^ 64) := by
    intro address mem
    obtain ⟨item, there, rfl⟩ := List.mem_map.mp (List.mem_toFinset.mp mem)
    exact Finset.mem_Ico.mpr (consistent.bounded item there)
  have count := Finset.card_le_card inside
  rw [List.toFinset_card_of_nodup consistent.addresses, List.length_map, Nat.card_Ico] at count
  omega

/-- The trees are low enough for the array of an iterator. -/
theorem Consistent.height_le {store : Indexes} {items placeholders : List IndexItem}
    (consistent : store.Consistent items placeholders) {index : Nat} (inside : index < store.roots.length) :
    (store.root index).height ≤ maxTreeDeep := by
  obtain ⟨count, balanced⟩ := (consistent.indexed index inside).balanced
  refine @Balanced.height_le_of_length _ _ count 64 balanced (lt_of_le_of_lt ?_ consistent.length_lt)
  rw [(consistent.perm index inside).length_eq]
  split
  · exact le_rfl
  · rw [List.length_append]
    exact Nat.le_add_right _ _

/-- A new key is stored. -/
theorem storageGetItem_new {store : Indexes} {items placeholders : List IndexItem}
    (consistent : store.Consistent items placeholders) {key : List UInt8} (valid : ValidKey key)
    (new : ∀ item ∈ items, item.key ≠ some key) {indexVal : List (Option CString)}
    (values : store.indices.mapM (getKeyValue store.debugBuild (key ++ [0]) key.length) = .ok indexVal)
    (few : store.nextInternalId + 1 ≠ 2 ^ 63) (address : Nat) :
    ∃ after, store.storageGetItem key true address =
      .ok (⟨address, store.nextInternalId, some key, indexVal⟩, after) := by
  rcases consistent.findKey_cases key with ⟨item, mem, _, named⟩ | ⟨missing, _⟩
  · exact absurd named (new item mem)
  · have some : ¬ key.length = 0 := Nat.one_le_iff_ne_zero.mp valid.1
    rw [storageGetItem, missing]
    dsimp only
    rw [if_pos rfl, if_neg some, keyOf_valid valid, storageInsertItem_eq consistent values]
    exact ⟨_, if_neg few⟩

/-- Any distinct keys can be stored. -/
theorem reached_of_keys (keys : List (List UInt8)) (distinct : keys.Nodup) (valid : ∀ key ∈ keys, ValidKey key)
    (few : keys.length < 2 ^ 62) :
    ∃ store, Reached false [] true store ∧ store.listItems.map IndexItem.keyBytes = keys := by
  suffices strong : ∃ store, Reached false [] true store ∧ store.listItems.map IndexItem.keyBytes = keys ∧
      store.nextInternalId = keys.length + 1 ∧ ∀ item ∈ store.listItems, item.address ≤ keys.length by
    obtain ⟨store, reached, same, _⟩ := strong
    exact ⟨store, reached, same⟩
  induction keys using List.reverseRecOn with
  | nil => exact ⟨init false [], .loaded .init nofun, rfl, rfl, nofun⟩
  | append_singleton earlier key ih =>
      rw [List.length_append, List.length_singleton] at few
      obtain ⟨before, _, apart⟩ := List.nodup_append.mp distinct
      obtain ⟨store, reached, same, next, low⟩ := ih before
        (fun other mem => valid other (List.mem_append_left _ mem)) (by omega)
      obtain ⟨named, build, placeholders, consistent, none⟩ := reached.agrees
      rw [none rfl] at consistent
      have ok : ValidKey key := valid key (by simp)
      have new : ∀ item ∈ store.listItems, item.key ≠ some key := by
        intro item mem equal
        have there : item.keyBytes ∈ earlier := by
          rw [← same]
          exact List.mem_map_of_mem mem
        refine apart item.keyBytes there key List.mem_cons_self ?_
        rw [IndexItem.keyBytes, equal]
        rfl
      have perm := consistent.perm internalIdIndex consistent.zero_lt
      rw [if_pos rfl, List.append_nil] at perm
      have fresh : store.Fresh (earlier.length + 1) := by
        refine ⟨⟨Nat.succ_pos _, by omega⟩, fun item mem equal => ?_⟩
        have := low item (perm.mem_iff.mp mem)
        omega
      have values : store.indices.mapM (getKeyValue store.debugBuild (key ++ [0]) key.length) = .ok [] := by
        rw [named]
        rfl
      obtain ⟨after, run⟩ := storageGetItem_new consistent ok new values (by omega) (earlier.length + 1)
      rcases storageGetItem_keeps consistent ok fresh run with ⟨_, found⟩ | ⟨_, kept, _, _, _, numbered, _, _⟩
      · rcases consistent.findKey_cases key with ⟨item, mem, _, equal⟩ | ⟨missing, _⟩
        · exact absurd equal (new item mem)
        · rw [missing] at found
          cases found
      · refine ⟨after, reached.get ok true fresh run, ?_, ?_, ?_⟩
        · rw [kept.listItems, List.map_append, same]
          rfl
        · rw [numbered, next, List.length_append, List.length_singleton]
          omega
        · intro item mem
          rw [kept.listItems] at mem
          rw [List.length_append, List.length_singleton]
          rcases List.mem_append.mp mem with there | single
          · exact Nat.le_succ_of_le (low item there)
          · cases List.mem_singleton.mp single
            exact le_rfl

end Indexes

end Menoetius
