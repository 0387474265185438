import Menoetius.StorageIndexed

/-
This file models the lookups of `storage.c` and shows which keys they return.
-/

namespace Menoetius
open SearchTree RbTree LittleEndian LinkedList

/-- `extra_matchers_match` on the key of an item. -/
def IndexItem.meets (item : IndexItem) (matchers : List UInt8) (numMatchers : Nat) : Bool :=
  extraMatchersMatch (item.keyBytes ++ [0]) (UInt16.ofNat item.keyBytes.length) numMatchers matchers

/-- What is copied to the results for an item. -/
def IndexItem.result (item : IndexItem) : List UInt8 := bytesOf 2 item.keyBytes.length ++ item.keyBytes

/-- The loop over an iterator, which gives at most as many items as there are rounds. -/
def storageLookupLoop (probe : IndexItem → Ordering) (matchers : List UInt8) (numMatchers : Nat) :
    Nat → Option IndexItem × Iterator IndexItem → Nat → Nat → Nat → List UInt8 → Except Failure (List UInt8)
  | 0, _, _, _, _, results => pure results
  | _ + 1, (none, _), _, _, _, results => pure results
  | rounds + 1, (some elem, path), offset, limit, maxResultsSize, results =>
      if elem.meets matchers numMatchers then
        if 0 < offset then do
          let next ← sglibItNext probe path
          storageLookupLoop probe matchers numMatchers rounds next (offset - 1) limit maxResultsSize results
        else if limit = 0 then pure results
        else if maxResultsSize < elem.keyBytes.length + 2 then throw (.code .bufTooSmall)
        else if elem.keyBytes.length = 0 then throw (.abort .storageLookupKey)
        else do
          let next ← sglibItNext probe path
          storageLookupLoop probe matchers numMatchers rounds next offset (limit - 1)
            (maxResultsSize - (elem.keyBytes.length + 2)) (results ++ elem.result)
      else do
        let next ← sglibItNext probe path
        storageLookupLoop probe matchers numMatchers rounds next offset limit maxResultsSize results

namespace Indexes

/-- The item to find by its name, or by the value of one label. -/
def valueToFind (store : Indexes) (indexNum : Nat) (labelValue : CString) : IndexItem :=
  if indexNum = nameIndex then keyToFind labelValue.bytes
  else
    { address := 0, internalId := 0, key := none
      indexVal := (store.indices.map fun _ => none).set (indexNum - numSpecialIndices) (some labelValue) }

def storageLookup (store : Indexes) (indexNum : Nat) (labelValue : CString) (extraMatchers : List UInt8)
    (numExtraMatchers maxResultsSize offset limit : Nat) : Except Failure (List UInt8) :=
  if indexNum = nameIndex ∨
      (numSpecialIndices ≤ indexNum ∧ indexNum < store.indices.length + numSpecialIndices) then do
    let probe := storageItemCmp indexNum (store.valueToFind indexNum labelValue)
    let first ← sglibItInitOnEqual probe (store.root indexNum)
    storageLookupLoop probe extraMatchers numExtraMatchers (store.root indexNum).toList.length first offset limit
      maxResultsSize []
  else throw (.code .badIndex)

end Indexes

/-- The loop of a lookup without an index, which follows the list. -/
def storageScanLoop (next : IndexItem → Option IndexItem) (matchers : List UInt8) (numMatchers : Nat) :
    Nat → Option IndexItem → Nat → Nat → Nat → List UInt8 → Except Failure (Option Err × List UInt8 × Nat)
  | 0, _, _, _, lastInternalId, results => pure (none, results, lastInternalId)
  | _ + 1, none, _, _, lastInternalId, results => pure (none, results, lastInternalId)
  | rounds + 1, some item, limit, maxResultsSize, lastInternalId, results =>
      if item.meets matchers numMatchers then
        if limit = 0 then pure (none, results, lastInternalId)
        else if maxResultsSize < item.keyBytes.length + 2 then pure (some .bufTooSmall, results, lastInternalId)
        else if item.keyBytes.length = 0 then throw (.abort .storageLookupKey)
        else
          storageScanLoop next matchers numMatchers rounds (next item) (limit - 1)
            (maxResultsSize - (item.keyBytes.length + 2)) item.internalId (results ++ item.result)
      else storageScanLoop next matchers numMatchers rounds (next item) limit maxResultsSize lastInternalId results

namespace Indexes

/-- The item behind the one with the last internal id, or behind the one with the nearest lesser id. -/
def scanFrom (store : Indexes) (lastInternalId : Nat) : Option IndexItem :=
  if lastInternalId = 0 then store.list.first
  else
    match sglibFindMemberOrNearestLesser (storageItemCmp internalIdIndex (idToFind lastInternalId)) none
        (store.root internalIdIndex) with
    | none => none
    | some item => store.list.next item

/-- The result is the code, the results and the last internal id. -/
def storageLookupWithoutIndex (store : Indexes) (matchers : List UInt8)
    (numMatchers maxResultsSize lastInternalId limit : Nat) : Except Failure (Option Err × List UInt8 × Nat) :=
  storageScanLoop store.list.next matchers numMatchers (store.root internalIdIndex).toList.length
    (store.scanFrom lastInternalId) limit maxResultsSize lastInternalId []

end Indexes

/-- The results for a list of items. -/
def resultsOf (items : List IndexItem) : List UInt8 := items.flatMap IndexItem.result

/-- The items that the matchers meet, from an offset on and up to a limit. -/
def pageOf (matchers : List UInt8) (numMatchers offset limit : Nat) (items : List IndexItem) : List IndexItem :=
  ((items.filter fun item => item.meets matchers numMatchers).drop offset).take limit

theorem result_length (item : IndexItem) : item.result.length = item.keyBytes.length + 2 := by
  rw [IndexItem.result, List.length_append, bytesOf_length]
  omega

section
variable {before : IndexItem → IndexItem → Prop} {probe : IndexItem → Ordering}

/-- The loop copies the keys of a page, if there is room for them. -/
theorem storageLookupLoop_run (cut : Cut before probe) (matchers : List UInt8) (numMatchers : Nat)
    {items : List IndexItem} (keys : ∀ item ∈ items, item.keyBytes.length ≠ 0) {rounds : Nat}
    (enough : items.length ≤ rounds) {path : Iterator IndexItem} (sound : Sound before path)
    (pending : pendingItems probe path = items.tail) (offset limit room : Nat) (results : List UInt8) :
    storageLookupLoop probe matchers numMatchers rounds (items.head?, path) offset limit room results =
      if (resultsOf (pageOf matchers numMatchers offset limit items)).length ≤ room then
        .ok (results ++ resultsOf (pageOf matchers numMatchers offset limit items))
      else .error (.code .bufTooSmall) := by
  induction items generalizing rounds path offset limit room results with
  | nil =>
      have none : pageOf matchers numMatchers offset limit [] = [] := by simp [pageOf]
      have nothing : (resultsOf []).length ≤ room := Nat.zero_le _
      rw [none, if_pos nothing, resultsOf, List.flatMap_nil, List.append_nil]
      cases rounds <;> rfl
  | cons elem rest ih =>
      obtain ⟨rounds, rfl⟩ : ∃ less, rounds = less + 1 := ⟨rounds - 1, by rw [List.length_cons] at enough; omega⟩
      obtain ⟨after, next, still, later⟩ := sglibItNext_gives cut sound
      rw [pending, List.tail_cons] at next later
      obtain ⟨key, others⟩ := List.forall_mem_cons.mp keys
      have step : ∀ offset limit room results,
          (do let next ← sglibItNext probe path
              storageLookupLoop probe matchers numMatchers rounds next offset limit room results) =
            if (resultsOf (pageOf matchers numMatchers offset limit rest)).length ≤ room then
              .ok (results ++ resultsOf (pageOf matchers numMatchers offset limit rest))
            else .error (.code .bufTooSmall) := by
        intro offset limit room results
        rw [next]
        exact ih others (Nat.le_of_succ_le_succ enough) still later offset limit room results
      rw [List.head?_cons, storageLookupLoop]
      split
      next meets =>
        have chosen : (elem :: rest).filter (fun item => item.meets matchers numMatchers) =
            elem :: rest.filter fun item => item.meets matchers numMatchers := List.filter_cons_of_pos meets
        split
        next ahead =>
          obtain ⟨offset, rfl⟩ : ∃ less, offset = less + 1 := ⟨offset - 1, by omega⟩
          have same : pageOf matchers numMatchers (offset + 1) limit (elem :: rest) =
              pageOf matchers numMatchers offset limit rest := by rw [pageOf, chosen, List.drop_succ_cons, pageOf]
          rw [same, Nat.add_sub_cancel]
          exact step offset limit room results
        next here =>
          obtain rfl : offset = 0 := by omega
          cases limit with
          | zero =>
              have none : pageOf matchers numMatchers 0 0 (elem :: rest) = [] := by simp [pageOf]
              have nothing : (resultsOf []).length ≤ room := Nat.zero_le _
              rw [none, if_pos rfl, if_pos nothing, resultsOf, List.flatMap_nil, List.append_nil]
              rfl
          | succ limit =>
              have same : resultsOf (pageOf matchers numMatchers 0 (limit + 1) (elem :: rest)) =
                  elem.result ++ resultsOf (pageOf matchers numMatchers 0 limit rest) := by
                rw [pageOf, chosen, List.drop_zero, List.take_succ_cons, pageOf, List.drop_zero]
                rfl
              rw [if_neg (Nat.succ_ne_zero _), same, List.length_append, result_length, ← List.append_assoc]
              by_cases small : room < elem.keyBytes.length + 2
              · rw [if_pos small, if_neg (by omega)]
                rfl
              · rw [if_neg small]
                refine (step 0 limit (room - (elem.keyBytes.length + 2)) (results ++ elem.result)).trans ?_
                by_cases fits : (resultsOf (pageOf matchers numMatchers 0 limit rest)).length ≤
                    room - (elem.keyBytes.length + 2)
                · rw [if_pos fits, if_pos (by omega)]
                · rw [if_neg fits, if_neg (by omega)]
      next refused =>
        have same : pageOf matchers numMatchers offset limit (elem :: rest) =
            pageOf matchers numMatchers offset limit rest := by
          unfold pageOf
          congr 2
          exact List.filter_cons_of_neg refused
        rw [same]
        exact step offset limit room results

end

namespace Indexes

/-- The value that a tree orders an item by. -/
def indexedValue (indexNum : Nat) (item : IndexItem) : Option CString :=
  if indexNum = nameIndex then item.keyString else item.value (indexNum - numSpecialIndices)

/-- The trees of the name and of the labels. -/
def LookupIndex (store : Indexes) (indexNum : Nat) : Prop :=
  indexNum = nameIndex ∨ (numSpecialIndices ≤ indexNum ∧ indexNum < store.indices.length + numSpecialIndices)

theorem nullstrcmp_some_iff {value : CString} {other : Option CString} :
    nullstrcmp (some value) other = .eq ↔ other = some value := by
  cases other with
  | none => exact iff_of_false nofun nofun
  | some text =>
      have same : strcmp value text = .eq ↔ value = text := by
        have := @strcmp_eq_iff value text
        rw [Bool.eq_iff_iff, beq_iff_eq, decide_eq_true_eq] at this
        exact this
      change strcmp value text = .eq ↔ _
      rw [same, Option.some_inj]
      exact eq_comm

/-- An item equals the one to find if and only if it has the value. -/
theorem valueToFind_iff {store : Indexes} {indexNum : Nat} (valid : store.LookupIndex indexNum) (value : CString)
    (item : IndexItem) :
    storageItemCmp indexNum (store.valueToFind indexNum value) item = .eq ↔ indexedValue indexNum item = some value := by
  rcases valid with rfl | ⟨special, configured⟩
  · have string : CString.at (value.bytes ++ [0]) = value := at_append value []
    change nullstrcmp (some (CString.at (value.bytes ++ [0]))) item.keyString = .eq ↔ item.keyString = some value
    rw [string]
    exact nullstrcmp_some_iff
  · obtain ⟨label, rfl⟩ : ∃ label, indexNum = label + 3 := ⟨indexNum - 3, by rw [numSpecialIndices] at special; omega⟩
    have other : ¬ label + 3 = nameIndex := by rw [nameIndex]; omega
    have inside : label < store.indices.length := by rw [numSpecialIndices] at configured; omega
    have found : (store.valueToFind (label + 3) value).value label = some value := by
      rw [valueToFind, if_neg other, IndexItem.value, numSpecialIndices, Nat.add_sub_cancel, List.getD_eq_getElem?_getD,
        List.getElem?_set_self (by rwa [List.length_map])]
      rfl
    rw [indexedValue, if_neg other, numSpecialIndices, Nat.add_sub_cancel]
    change nullstrcmp ((store.valueToFind (label + 3) value).value label) (item.value label) = .eq ↔ _
    rw [found]
    exact nullstrcmp_some_iff

/-- The items of a tree with a value that the matchers meet, in the order of the tree. -/
def matched (store : Indexes) (indexNum : Nat) (labelValue : CString) (matchers : List UInt8) (numMatchers : Nat) :
    List IndexItem :=
  (store.root indexNum).toList.filter fun item =>
    indexedValue indexNum item = some labelValue && item.meets matchers numMatchers

theorem LookupIndex.lt {store : Indexes} {items placeholders : List IndexItem}
    (consistent : store.Consistent items placeholders) {indexNum : Nat} (valid : store.LookupIndex indexNum) :
    indexNum < store.roots.length ∧ indexNum ≠ internalIdIndex := by
  rw [consistent.count]
  rcases valid with rfl | ⟨special, configured⟩
  · rw [nameIndex, numSpecialIndices, internalIdIndex]
    omega
  · rw [numSpecialIndices] at special
    exact ⟨configured, by rw [internalIdIndex]; omega⟩

/-- A lookup returns the keys of a page, or reports that there is no room for them. -/
theorem storageLookup_run {store : Indexes} {items placeholders : List IndexItem}
    (consistent : store.Consistent items placeholders) {indexNum : Nat} (valid : store.LookupIndex indexNum)
    (labelValue : CString) (matchers : List UInt8) (numMatchers room offset limit : Nat) :
    store.storageLookup indexNum labelValue matchers numMatchers room offset limit =
      if (resultsOf (((store.matched indexNum labelValue matchers numMatchers).drop offset).take limit)).length ≤ room
      then .ok (resultsOf (((store.matched indexNum labelValue matchers numMatchers).drop offset).take limit))
      else .error (.code .bufTooSmall) := by
  obtain ⟨inside, notIds⟩ := LookupIndex.lt consistent valid
  have cut := storageItemCmp_cut indexNum (store.valueToFind indexNum labelValue)
  obtain ⟨path, first, sound, pending⟩ := sglibItInitOnEqual_gives cut (consistent.indexed indexNum inside).sorted
    (consistent.height_le inside)
  have perm := consistent.perm indexNum inside
  rw [if_neg notIds] at perm
  have page : pageOf matchers numMatchers offset limit
      ((store.root indexNum).equals (storageItemCmp indexNum (store.valueToFind indexNum labelValue))) =
      ((store.matched indexNum labelValue matchers numMatchers).drop offset).take limit := by
    rw [pageOf, equals, List.filter_filter, matched]
    congr 2
    refine List.filter_congr fun item _ => ?_
    rw [Bool.and_comm, decide_eq_decide.mpr (valueToFind_iff valid labelValue item)]
  have keys : ∀ item ∈ (store.root indexNum).equals
      (storageItemCmp indexNum (store.valueToFind indexNum labelValue)), item.keyBytes.length ≠ 0 := by
    intro item mem
    exact Nat.one_le_iff_ne_zero.mp (consistent.keyBytes (perm.mem_iff.mp (List.mem_of_mem_filter mem))).2.1
  have run := storageLookupLoop_run cut matchers numMatchers keys (List.length_filter_le _ _) sound pending offset limit
    room []
  have configured : indexNum = nameIndex ∨
      (numSpecialIndices ≤ indexNum ∧ indexNum < store.indices.length + numSpecialIndices) := valid
  rw [storageLookup, if_pos configured]
  change (sglibItInitOnEqual _ (store.root indexNum) >>= _) = _
  rw [first]
  rw [page, List.nil_append] at run
  exact run

/-- The pages of a list make up the list. -/
theorem pages_eq {α : Type} (items : List α) (size : Nat) {pages : Nat} :
    (List.range pages).flatMap (fun page => (items.drop (page * size)).take size) = items.take (pages * size) := by
  induction pages with
  | zero => simp
  | succ pages ih =>
      rw [List.range_succ, List.flatMap_append, ih, List.flatMap_singleton, Nat.succ_mul, List.take_add]

/-- A lookup returns a page of the items with the value that the matchers meet, and the pages make up all of them. -/
theorem storageLookup_slice {debugBuild : Bool} {indices : List CString} {store : Indexes}
    (reached : Reached debugBuild indices true store) {indexNum : Nat} (valid : store.LookupIndex indexNum)
    (labelValue : CString) (matchers : List UInt8) (numMatchers : Nat) :
    let matched := store.matched indexNum labelValue matchers numMatchers
    (∀ room offset limit, (resultsOf ((matched.drop offset).take limit)).length ≤ room →
      store.storageLookup indexNum labelValue matchers numMatchers room offset limit =
        .ok (resultsOf ((matched.drop offset).take limit))) ∧
    matched.Nodup ∧ matched.Pairwise (inOrder indexNum) ∧
    (∀ item, item ∈ matched ↔
      item ∈ store.listItems ∧ indexedValue indexNum item = some labelValue ∧ item.meets matchers numMatchers = true) ∧
    ∀ size pages, matched.length ≤ pages * size →
      (List.range pages).flatMap (fun page => (matched.drop (page * size)).take size) = matched := by
  obtain ⟨_, _, placeholders, consistent, _⟩ := reached.agrees
  obtain ⟨inside, notIds⟩ := LookupIndex.lt consistent valid
  have perm := consistent.perm indexNum inside
  rw [if_neg notIds] at perm
  refine ⟨?_, ?_, ?_, ?_, ?_⟩
  · intro room offset limit fits
    rw [storageLookup_run consistent valid, if_pos fits]
  · exact (perm.nodup_iff.mpr consistent.list.nodup).filter _
  · exact (consistent.indexed indexNum inside).sorted.filter _
  · intro item
    rw [matched, List.mem_filter, perm.mem_iff, Bool.and_eq_true, decide_eq_true_eq]
  · intro size pages enough
    rw [pages_eq, List.take_of_length_le enough]

/-- The store with the keys `m` and `m{a="1"}` and an index for the label `a`. -/
theorem storageLookup_slice_twoKeys :
    ∃ store, Reached false [⟨[97], by decide⟩] true store ∧
      store.storageLookup 3 ⟨[49], by decide⟩ [] 0 100 0 10 = .ok [5, 0, 109, 0, 97, 0, 49] := by
  have start : Reached false [⟨[97], by decide⟩] true (init false [⟨[97], by decide⟩]) := .loaded .init nofun
  have first := @Reached.get _ _ _ _ start [109] ⟨by decide, by decide⟩ true 4096 ⟨by decide, nofun⟩ _ rfl
  have second := @Reached.get _ _ _ _ first [109, 0, 97, 0, 49] ⟨by decide, by decide⟩ true 8192
    ⟨by decide, by decide⟩ _ rfl
  refine ⟨_, second, ?_⟩
  exact (storageLookup_slice second (Or.inr (by decide)) ⟨[49], by decide⟩ [] 0).1 100 0 10 (by decide)

/-- The items that a scan meets. -/
def scanItems (store : Indexes) (lastInternalId : Nat) : List IndexItem :=
  store.list.walk (store.root internalIdIndex).toList.length (store.scanFrom lastInternalId)

end Indexes

/-- The internal id of the last item of a page. -/
def lastIdOf (lastInternalId : Nat) (page : List IndexItem) : Nat :=
  (page.getLast?.map IndexItem.internalId).getD lastInternalId

theorem lastIdOf_cons (lastInternalId : Nat) (item : IndexItem) (page : List IndexItem) :
    lastIdOf lastInternalId (item :: page) = lastIdOf item.internalId page := by
  cases page with
  | nil => rfl
  | cons next rest => simp [lastIdOf, List.getLast?_cons]

/-- The loop copies the keys of the first page, if there is room for them. -/
theorem storageScanLoop_run {links : Links IndexItem} {front items : List IndexItem}
    (holds : links.Holds (front ++ items)) (matchers : List UInt8) (numMatchers : Nat)
    (keys : ∀ item ∈ items, item.keyBytes.length ≠ 0) {rounds : Nat} (enough : items.length ≤ rounds)
    (limit room lastInternalId : Nat) (results : List UInt8) :
    ((resultsOf (pageOf matchers numMatchers 0 limit items)).length ≤ room ∧
      storageScanLoop links.next matchers numMatchers rounds items.head? limit room lastInternalId results =
        .ok (none, results ++ resultsOf (pageOf matchers numMatchers 0 limit items),
          lastIdOf lastInternalId (pageOf matchers numMatchers 0 limit items))) ∨
    (room < (resultsOf (pageOf matchers numMatchers 0 limit items)).length ∧
      ∃ part last,
        storageScanLoop links.next matchers numMatchers rounds items.head? limit room lastInternalId results =
          .ok (some .bufTooSmall, part, last)) := by
  induction items generalizing front rounds limit room lastInternalId results with
  | nil =>
      have none : pageOf matchers numMatchers 0 limit [] = [] := by simp [pageOf]
      rw [none, resultsOf, List.flatMap_nil, List.append_nil]
      refine Or.inl ⟨Nat.zero_le _, ?_⟩
      cases rounds <;> rfl
  | cons item rest ih =>
      obtain ⟨rounds, rfl⟩ : ∃ less, rounds = less + 1 := ⟨rounds - 1, by rw [List.length_cons] at enough; omega⟩
      obtain ⟨key, others⟩ := List.forall_mem_cons.mp keys
      have later : links.Holds ((front ++ [item]) ++ rest) := by rwa [List.append_assoc]
      have step := ih later others (Nat.le_of_succ_le_succ enough)
      rw [← holds.next front item rest rfl] at step
      rw [List.head?_cons, storageScanLoop]
      by_cases meets : item.meets matchers numMatchers = true
      · rw [if_pos meets]
        have chosen : (item :: rest).filter (fun item => item.meets matchers numMatchers) =
            item :: rest.filter fun item => item.meets matchers numMatchers := List.filter_cons_of_pos meets
        cases limit with
        | zero =>
            have none : pageOf matchers numMatchers 0 0 (item :: rest) = [] := by simp [pageOf]
            rw [none, if_pos rfl, resultsOf, List.flatMap_nil, List.append_nil]
            exact Or.inl ⟨Nat.zero_le _, rfl⟩
        | succ limit =>
            have page : pageOf matchers numMatchers 0 (limit + 1) (item :: rest) =
                item :: pageOf matchers numMatchers 0 limit rest := by
              rw [pageOf, chosen, List.drop_zero, List.take_succ_cons, pageOf, List.drop_zero]
            have bytes : resultsOf (item :: pageOf matchers numMatchers 0 limit rest) =
                item.result ++ resultsOf (pageOf matchers numMatchers 0 limit rest) := rfl
            rw [page, bytes, lastIdOf_cons, if_neg (Nat.succ_ne_zero _), List.length_append, result_length,
              ← List.append_assoc]
            by_cases small : room < item.keyBytes.length + 2
            · rw [if_pos small]
              exact Or.inr ⟨by omega, results, lastInternalId, rfl⟩
            · rw [if_neg small, if_neg key]
              rcases step limit (room - (item.keyBytes.length + 2)) item.internalId (results ++ item.result) with
                ⟨fits, run⟩ | ⟨large, part, last, run⟩
              · exact Or.inl ⟨by omega, run⟩
              · exact Or.inr ⟨by omega, part, last, run⟩
      · rw [if_neg meets]
        have page : pageOf matchers numMatchers 0 limit (item :: rest) = pageOf matchers numMatchers 0 limit rest := by
          unfold pageOf
          congr 2
          exact List.filter_cons_of_neg meets
        rw [page]
        exact step limit room lastInternalId results

/-- The nearest lesser item is one of the tree, or the one that is given. -/
theorem nearestLesser_mem {probe : IndexItem → Ordering} {nearest : Option IndexItem} {tree : RbTree IndexItem}
    {item : IndexItem} (found : sglibFindMemberOrNearestLesser probe nearest tree = some item) :
    item ∈ tree.toList ∨ nearest = some item := by
  induction tree generalizing nearest with
  | leaf => exact Or.inr found
  | node color left root right ihLeft ihRight =>
      rw [sglibFindMemberOrNearestLesser] at found
      rw [toList_node]
      cases side : probe root with
      | lt =>
          rw [side] at found
          exact (ihLeft found).imp (List.mem_append_left _) id
      | gt =>
          rw [side] at found
          rcases ihRight found with there | here
          · exact Or.inl (List.mem_append_right _ (List.mem_cons_of_mem _ there))
          · cases here
            exact Or.inl (List.mem_append_right _ List.mem_cons_self)
      | eq =>
          rw [side] at found
          cases found
          exact Or.inl (List.mem_append_right _ List.mem_cons_self)

namespace Indexes

/-- A scan that starts at a place of the list meets all items from there on. -/
theorem Consistent.scanItems_eq {store : Indexes} {front back : List IndexItem}
    (consistent : store.Consistent (front ++ back) []) {lastInternalId : Nat}
    (start : store.scanFrom lastInternalId = back.head?) : store.scanItems lastInternalId = back := by
  have perm := consistent.perm internalIdIndex consistent.zero_lt
  rw [if_pos rfl, List.append_nil] at perm
  have few : back.length ≤ (store.root internalIdIndex).toList.length := by
    rw [perm.length_eq, List.length_append]
    exact Nat.le_add_left _ _
  rw [scanItems, start]
  exact consistent.list.walk_from few

/-- A scan starts inside the list. -/
theorem scanItems_suffix {store : Indexes} {items : List IndexItem} (consistent : store.Consistent items [])
    (lastInternalId : Nat) :
    ∃ front, items = front ++ store.scanItems lastInternalId ∧
      store.scanFrom lastInternalId = (store.scanItems lastInternalId).head? := by
  have perm := consistent.perm internalIdIndex consistent.zero_lt
  rw [if_pos rfl, List.append_nil] at perm
  have suffix : ∀ front back, items = front ++ back → store.scanFrom lastInternalId = back.head? →
      ∃ front, items = front ++ store.scanItems lastInternalId ∧
        store.scanFrom lastInternalId = (store.scanItems lastInternalId).head? := by
    rintro front back rfl start
    rw [consistent.scanItems_eq start]
    exact ⟨front, rfl, start⟩
  by_cases zero : lastInternalId = 0
  · exact suffix [] items rfl (by rw [scanFrom, if_pos zero, consistent.list.first])
  · cases found : sglibFindMemberOrNearestLesser (storageItemCmp internalIdIndex (idToFind lastInternalId)) none
        (store.root internalIdIndex) with
    | none => exact suffix items [] (List.append_nil _).symm (by rw [scanFrom, if_neg zero, found]; rfl)
    | some item =>
        have there := (nearestLesser_mem found).resolve_right nofun
        obtain ⟨front, back, split⟩ := List.append_of_mem (perm.mem_iff.mp there)
        refine suffix (front ++ [item]) back (by rw [List.append_assoc]; exact split) ?_
        rw [scanFrom, if_neg zero, found]
        exact consistent.list.next front item back split

/-- A scan returns the keys of its first page, or reports that there is no room for them. -/
theorem storageLookupWithoutIndex_run {store : Indexes} {items : List IndexItem} (consistent : store.Consistent items [])
    (matchers : List UInt8) (numMatchers room lastInternalId limit : Nat) :
    ((resultsOf (pageOf matchers numMatchers 0 limit (store.scanItems lastInternalId))).length ≤ room ∧
      store.storageLookupWithoutIndex matchers numMatchers room lastInternalId limit =
        .ok (none, resultsOf (pageOf matchers numMatchers 0 limit (store.scanItems lastInternalId)),
          lastIdOf lastInternalId (pageOf matchers numMatchers 0 limit (store.scanItems lastInternalId)))) ∨
    (room < (resultsOf (pageOf matchers numMatchers 0 limit (store.scanItems lastInternalId))).length ∧
      ∃ part last, store.storageLookupWithoutIndex matchers numMatchers room lastInternalId limit =
        .ok (some .bufTooSmall, part, last)) := by
  obtain ⟨front, split, start⟩ := scanItems_suffix consistent lastInternalId
  have holds := consistent.list
  rw [split] at holds
  have perm := consistent.perm internalIdIndex consistent.zero_lt
  rw [if_pos rfl, List.append_nil] at perm
  have few : (store.scanItems lastInternalId).length ≤ (store.root internalIdIndex).toList.length := by
    rw [perm.length_eq, split, List.length_append]
    exact Nat.le_add_left _ _
  have keys : ∀ item ∈ store.scanItems lastInternalId, item.keyBytes.length ≠ 0 := by
    intro item mem
    have there : item ∈ items := by
      rw [split]
      exact List.mem_append_right _ mem
    exact Nat.one_le_iff_ne_zero.mp (consistent.keyBytes there).2.1
  have run := storageScanLoop_run holds matchers numMatchers keys few limit room lastInternalId []
  rw [← start, List.nil_append] at run
  exact run

end Indexes

end Menoetius
