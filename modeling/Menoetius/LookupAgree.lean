import Menoetius.StorageLookup

/-
This file shows when a lookup in a tree and a scan of the list return the same keys.
-/

namespace Menoetius
open LittleEndian

/-- The keys in front of the empty one, each behind its length. -/
def readKeys : Nat → List UInt8 → List (List UInt8)
  | 0, _ => []
  | rounds + 1, results =>
      let length := valueOf (results.take 2)
      if length = 0 then [] else (results.drop 2).take length :: readKeys rounds (results.drop (2 + length))

def resultKeys (results : List UInt8) : List (List UInt8) := readKeys results.length results

theorem readKeys_append {items : List IndexItem}
    (keys : ∀ item ∈ items, item.keyBytes.length ≠ 0 ∧ item.keyBytes.length < 2 ^ 16) {behind : List UInt8}
    (none : valueOf (behind.take 2) = 0) {rounds : Nat} (enough : (resultsOf items).length ≤ rounds) :
    readKeys rounds (resultsOf items ++ behind) = items.map IndexItem.keyBytes := by
  induction items generalizing rounds with
  | nil =>
      cases rounds with
      | zero => rfl
      | succ rounds =>
          change readKeys (rounds + 1) behind = []
          rw [readKeys]
          exact if_pos none
  | cons item rest ih =>
      obtain ⟨⟨some, small⟩, others⟩ := List.forall_mem_cons.mp keys
      have split : resultsOf (item :: rest) ++ behind =
          bytesOf 2 item.keyBytes.length ++ (item.keyBytes ++ (resultsOf rest ++ behind)) := by
        rw [resultsOf, List.flatMap_cons, IndexItem.result, List.append_assoc, List.append_assoc]
        rfl
      have first : (bytesOf 2 item.keyBytes.length).length = 2 := bytesOf_length _ _
      have length : (resultsOf (item :: rest)).length = item.keyBytes.length + 2 + (resultsOf rest).length := by
        rw [resultsOf, List.flatMap_cons, List.length_append, result_length]
        rfl
      obtain ⟨rounds, rfl⟩ : ∃ less, rounds = less + 1 := ⟨rounds - 1, by omega⟩
      have head : (resultsOf (item :: rest) ++ behind).take 2 = bytesOf 2 item.keyBytes.length := by
        rw [split, List.take_left' first]
      have tail : (resultsOf (item :: rest) ++ behind).drop 2 = item.keyBytes ++ (resultsOf rest ++ behind) := by
        rw [split, List.drop_left' first]
      rw [readKeys, head, valueOf_bytesOf_of_lt 2 _ small, if_neg some, ← List.drop_drop, tail, List.take_left,
        List.drop_left, ih others (by omega), List.map_cons]

/-- The keys are read back from the results. -/
theorem resultKeys_resultsOf {items : List IndexItem}
    (keys : ∀ item ∈ items, item.keyBytes.length ≠ 0 ∧ item.keyBytes.length < 2 ^ 16) :
    resultKeys (resultsOf items) = items.map IndexItem.keyBytes := by
  have read := @readKeys_append items keys [] rfl _ le_rfl
  rwa [List.append_nil] at read

theorem resultsOf_sublist {some items : List IndexItem} (sub : some.Sublist items) :
    (resultsOf some).length ≤ (resultsOf items).length := (sub.flatMap IndexItem.result).length_le

theorem resultsOf_perm {first second : List IndexItem} (perm : first.Perm second) :
    (resultsOf first).length = (resultsOf second).length := (perm.flatMap_right _).length_eq

theorem of_mapM_getElem {α β : Type} {f : α → Except Failure β} {items : List α} {results : List β}
    (run : items.mapM f = .ok results) {place : Nat} {item : α} (found : items[place]? = some item) :
    ∃ result, results[place]? = some result ∧ f item = .ok result := by
  induction items generalizing results place with
  | nil => cases found
  | cons first rest ih =>
      rw [List.mapM_cons] at run
      cases head : f first with
      | error failure =>
          rw [head] at run
          cases run
      | ok result =>
          cases tail : rest.mapM f with
          | error failure =>
              rw [head, tail] at run
              cases run
          | ok others =>
              rw [head, tail] at run
              cases run
              cases place with
              | zero =>
                  cases found
                  exact ⟨result, rfl, head⟩
              | succ place => exact ih tail found

namespace Indexes

section
variable {store : Indexes} {items : List IndexItem}

/-- The label of an item that a tree is ordered by is what `get_key_value` finds in its key. -/
theorem Consistent.value (consistent : store.Consistent items []) {item : IndexItem} (mem : item ∈ items)
    {label : Nat} {name : CString} (configured : store.indices[label]? = some name) :
    getKeyValue store.debugBuild (item.keyBytes ++ [0]) item.keyBytes.length name = .ok (item.value label) := by
  obtain ⟨key, _, named, values⟩ := consistent.keyed item mem
  obtain ⟨value, found, read⟩ := of_mapM_getElem values configured
  have same : item.keyBytes = key := by
    rw [IndexItem.keyBytes, named]
    rfl
  rw [same, read, IndexItem.value, List.getD_eq_getElem?_getD, found]
  rfl

/-- Items with one key have the same values. -/
theorem Consistent.indexedValue_eq (consistent : store.Consistent items []) {first second : IndexItem}
    (inFirst : first ∈ items) (inSecond : second ∈ items) (same : first.keyBytes = second.keyBytes) (indexNum : Nat) :
    indexedValue indexNum first = indexedValue indexNum second := by
  obtain ⟨key, _, named, values⟩ := consistent.keyed first inFirst
  obtain ⟨other, _, called, others⟩ := consistent.keyed second inSecond
  rw [IndexItem.keyBytes, IndexItem.keyBytes, named, called] at same
  obtain rfl : key = other := same
  obtain vals : first.indexVal = second.indexVal := Except.ok.inj (values.symm.trans others)
  rw [indexedValue, indexedValue, IndexItem.keyString, IndexItem.keyString, IndexItem.value, IndexItem.value, named,
    called, vals]

end

/-- A lookup in a tree and a scan return the same keys, if the buffer and the limit have room for all of them. -/
def FindsSame (store : Indexes) (indexNum : Nat) (value : CString) (matchers : List KeyValue) : Prop :=
  ∀ room limit, (resultsOf store.listItems).length ≤ room → store.listItems.length ≤ limit →
    ∃ looked scanned last,
      store.storageLookup indexNum value (stringBytes (labelStrings matchers)) matchers.length room 0 limit =
        .ok looked ∧
      store.storageLookupWithoutIndex (stringBytes (labelStrings matchers)) matchers.length room 0 limit =
        .ok (none, scanned, last) ∧
      ∀ key, key ∈ resultKeys looked ↔ key ∈ resultKeys scanned

section
variable {store : Indexes} {items : List IndexItem}

/-- A scan from the start meets the whole list. -/
theorem Consistent.scanItems (consistent : store.Consistent items []) : store.scanItems 0 = items := by
  rw [Indexes.scanItems, scanFrom, if_pos rfl]
  exact consistent.listItems

/-- The items of a tree are those of the list. -/
theorem Consistent.matched_perm (consistent : store.Consistent items []) {indexNum : Nat}
    (valid : store.LookupIndex indexNum) (value : CString) (matchers : List UInt8) (numMatchers : Nat) :
    (store.matched indexNum value matchers numMatchers).Perm
      (items.filter fun item => indexedValue indexNum item = some value && item.meets matchers numMatchers) := by
  obtain ⟨inside, notIds⟩ := LookupIndex.lt consistent valid
  have perm := consistent.perm indexNum inside
  rw [if_neg notIds] at perm
  exact perm.filter _

theorem Consistent.keyLength (consistent : store.Consistent items []) {item : IndexItem} (mem : item ∈ items) :
    item.keyBytes.length ≠ 0 ∧ item.keyBytes.length < 2 ^ 16 := by
  obtain ⟨_, some, short⟩ := consistent.keyBytes mem
  unfold maxLfmSize at short
  omega

/-- The keys are the same if and only if each item that the matchers meet has the value in the tree. -/
theorem findsSame_iff (consistent : store.Consistent items []) {indexNum : Nat} (valid : store.LookupIndex indexNum)
    (value : CString) (matchers : List KeyValue) :
    store.FindsSame indexNum value matchers ↔
      ∀ item ∈ items, item.meets (stringBytes (labelStrings matchers)) matchers.length = true →
        indexedValue indexNum item = some value := by
  have perm := consistent.matched_perm valid value (stringBytes (labelStrings matchers)) matchers.length
  have looked : ∀ item, item ∈ store.matched indexNum value (stringBytes (labelStrings matchers)) matchers.length ↔
      item ∈ items ∧ indexedValue indexNum item = some value ∧
        item.meets (stringBytes (labelStrings matchers)) matchers.length = true := by
    intro item
    rw [perm.mem_iff, List.mem_filter, Bool.and_eq_true, decide_eq_true_eq]
  have few : (store.matched indexNum value (stringBytes (labelStrings matchers)) matchers.length).length ≤
      items.length := by
    rw [perm.length_eq]
    exact List.length_filter_le _ _
  have fits := resultsOf_perm perm
  have shorter : (resultsOf (items.filter fun item => indexedValue indexNum item = some value &&
      item.meets (stringBytes (labelStrings matchers)) matchers.length)).length ≤ (resultsOf items).length :=
    resultsOf_sublist List.filter_sublist
  -- Both lookups return whole lists, so that only these matter.
  have runs : ∀ room limit, (resultsOf items).length ≤ room → items.length ≤ limit →
      store.storageLookup indexNum value (stringBytes (labelStrings matchers)) matchers.length room 0 limit =
        .ok (resultsOf (store.matched indexNum value (stringBytes (labelStrings matchers)) matchers.length)) ∧
      ∃ last, store.storageLookupWithoutIndex (stringBytes (labelStrings matchers)) matchers.length room 0 limit =
        .ok (none, resultsOf (items.filter fun item =>
          item.meets (stringBytes (labelStrings matchers)) matchers.length), last) := by
    intro room limit large enough
    refine ⟨?_, ?_⟩
    · rw [storageLookup_run consistent valid, List.drop_zero, List.take_of_length_le (few.trans enough),
        if_pos (by omega)]
    · have page : pageOf (stringBytes (labelStrings matchers)) matchers.length 0 limit (store.scanItems 0) =
          items.filter fun item => item.meets (stringBytes (labelStrings matchers)) matchers.length := by
        rw [consistent.scanItems, pageOf, List.drop_zero]
        exact List.take_of_length_le ((List.length_filter_le _ _).trans enough)
      rcases storageLookupWithoutIndex_run consistent (stringBytes (labelStrings matchers)) matchers.length room 0
        limit with ⟨_, run⟩ | ⟨none, _⟩
      · rw [page] at run
        exact ⟨_, run⟩
      · rw [page] at none
        have part := resultsOf_sublist (@List.filter_sublist _
          (fun item => item.meets (stringBytes (labelStrings matchers)) matchers.length) items)
        omega
  have keysLooked : resultKeys (resultsOf (store.matched indexNum value (stringBytes (labelStrings matchers))
      matchers.length)) = _ := resultKeys_resultsOf fun item mem => consistent.keyLength ((looked item).mp mem).1
  have keysScanned : resultKeys (resultsOf (items.filter fun item =>
      item.meets (stringBytes (labelStrings matchers)) matchers.length)) = _ :=
    resultKeys_resultsOf fun item mem => consistent.keyLength (List.mem_of_mem_filter mem)
  rw [FindsSame, consistent.listItems]
  constructor
  · intro same item mem meets
    obtain ⟨found, scanned, last, lookup, scan, keys⟩ := same _ _ le_rfl le_rfl
    obtain ⟨lookupRun, ended, scanRun⟩ := runs _ _ le_rfl le_rfl
    cases lookupRun.symm.trans lookup
    cases scanRun.symm.trans scan
    rw [keysLooked, keysScanned] at keys
    obtain ⟨other, there, called⟩ := List.mem_map.mp
      ((keys item.keyBytes).mpr (List.mem_map_of_mem (List.mem_filter.mpr ⟨mem, meets⟩)))
    obtain ⟨inside, valued, _⟩ := (looked other).mp there
    rw [consistent.indexedValue_eq mem inside called.symm]
    exact valued
  · intro all room limit large enough
    obtain ⟨lookupRun, last, scanRun⟩ := runs room limit large enough
    refine ⟨_, _, last, lookupRun, scanRun, fun key => ?_⟩
    rw [keysLooked, keysScanned, List.mem_map, List.mem_map]
    refine exists_congr fun item => and_congr_left fun _ => ?_
    rw [looked, List.mem_filter]
    exact ⟨fun found => ⟨found.1, found.2.2⟩, fun met => ⟨met.1, all item met.1 met.2, met.2⟩⟩

end

end Indexes

/-- The label is the first one with its key, and it is not the last of all with an empty value. -/
def LFM.Yields (lfm : LFM) (label : KeyValue) : Prop :=
  ∃ front back, lfm.labels = front ++ label :: back ∧ (∀ other ∈ front, other.key ≠ label.key) ∧
    (label.value.bytes = [] → back ≠ [])

theorem readLabel_some_iff (debugBuild : Bool) (label : KeyValue) (labels : List KeyValue) :
    readLabel debugBuild label.key labels = .ok (some label.value) ↔
      ∃ front back, labels = front ++ label :: back ∧ (∀ other ∈ front, other.key ≠ label.key) ∧
        (label.value.bytes = [] → back ≠ []) := by
  induction labels with
  | nil =>
      refine iff_of_false (fun found => by cases found) ?_
      rintro ⟨front, back, split, _⟩
      cases front <;> cases split
  | cons first rest ih =>
      rw [readLabel]
      by_cases named : first.key = label.key
      · rw [if_pos named]
        have here : (∃ front back, first :: rest = front ++ label :: back ∧ (∀ other ∈ front, other.key ≠ label.key) ∧
            (label.value.bytes = [] → back ≠ [])) ↔ first = label ∧ (label.value.bytes = [] → rest ≠ []) := by
          constructor
          · rintro ⟨front, back, split, others, full⟩
            cases front with
            | nil =>
                cases split
                exact ⟨rfl, full⟩
            | cons other front =>
                cases split
                exact absurd named (others first List.mem_cons_self)
          · rintro ⟨rfl, full⟩
            exact ⟨[], rest, rfl, fun _ mem => absurd mem List.not_mem_nil, full⟩
        rw [here]
        by_cases hollow : first.value.bytes = [] ∧ rest = []
        · rw [if_pos hollow]
          refine iff_of_false ?_ fun found => found.2 (found.1 ▸ hollow.1) hollow.2
          intro found
          cases debugBuild <;> cases found
        · rw [if_neg hollow]
          constructor
          · intro value
            obtain same : first = label := by
              cases first
              cases label
              cases named
              cases value
              rfl
            exact ⟨same, fun empty none => hollow ⟨same ▸ empty, none⟩⟩
          · rintro ⟨rfl, _⟩
            rfl
      · rw [if_neg named, ih]
        constructor
        · rintro ⟨front, back, rfl, others, full⟩
          exact ⟨first :: front, back, rfl, List.forall_mem_cons.mpr ⟨named, others⟩, full⟩
        · rintro ⟨front, back, split, others, full⟩
          cases front with
          | nil =>
              cases split
              exact absurd rfl named
          | cons other front =>
              cases split
              exact ⟨front, back, rfl, (List.forall_mem_cons.mp others).2, full⟩

theorem stringBytes_inj {first second : List CString} (same : stringBytes first = stringBytes second) : first = second := by
  have none : (stringBytes []).length = 0 := rfl
  induction first generalizing second with
  | nil =>
      cases second with
      | nil => rfl
      | cons text rest =>
          have lengths := congrArg List.length same
          rw [stringBytes_length] at lengths
          exact absurd lengths (by rw [none]; omega)
  | cons text rest ih =>
      cases second with
      | nil =>
          have lengths := congrArg List.length same
          rw [stringBytes_length] at lengths
          exact absurd lengths (by rw [none]; omega)
      | cons other more =>
          have head := congrArg CString.at same
          rw [at_stringBytes, at_stringBytes] at head
          subst head
          have tail := congrArg (List.drop (text.bytes.length + 1)) same
          rw [drop_stringBytes, drop_stringBytes] at tail
          rw [ih tail]

theorem labelStrings_inj {first second : List KeyValue} (same : labelStrings first = labelStrings second) :
    first = second := by
  induction first generalizing second with
  | nil =>
      cases second with
      | nil => rfl
      | cons label rest => cases same
  | cons label rest ih =>
      cases second with
      | nil => cases same
      | cons other more =>
          rw [labelStrings_cons, labelStrings_cons] at same
          obtain ⟨key, values⟩ := List.cons.inj same
          obtain ⟨value, others⟩ := List.cons.inj values
          rw [ih others]
          cases label
          cases other
          cases key
          cases value
          rfl

/-- The labels are read back from the binary form. -/
theorem labels_of_encoded {first second : LFM} (same : first.encoded = second.encoded) : first.labels = second.labels := by
  have strings : stringBytes first.strings = stringBytes second.strings := by
    rw [← encoded_append, ← encoded_append, same]
  exact labelStrings_inj (List.cons.inj (stringBytes_inj strings)).2

theorem of_encodeBinaryLfm {lfm : LFM} {bytes : List UInt8} (run : encodeBinaryLfm lfm = .ok bytes) :
    bytes = lfm.encoded := by
  rw [encodeBinaryLfm_eq] at run
  split at run
  · cases run
    rfl
  · cases run

namespace Indexes

/-- The tree of the names goes with the label `__name__`, and every other tree with the label that it is for. -/
def TreeOf (indices : List CString) (indexNum : Nat) (name : CString) : Prop :=
  (indexNum = nameIndex ∧ name = nameKey) ∨ ∃ label, indices[label]? = some name ∧ indexNum = label + numSpecialIndices

/-- The binary form of a label set is a key of the storage. -/
def Stores (store : Indexes) (lfm : LFM) : Prop := ∃ item ∈ store.listItems, encodeBinaryLfm lfm = .ok item.keyBytes

section
variable {store : Indexes} {items : List IndexItem}

theorem Consistent.meets_iff (consistent : store.Consistent items []) {item : IndexItem} (mem : item ∈ items)
    {lfm : LFM} (encoded : item.keyBytes = lfm.encoded) (matchers : List KeyValue) :
    item.meets (stringBytes (labelStrings matchers)) matchers.length = true ↔ ∀ matcher ∈ matchers, lfm.Hits matcher := by
  have short := (consistent.keyLength mem).2
  rw [encoded] at short
  rw [IndexItem.meets, encoded]
  refine extraMatchersMatch_iff lfm ?_ matchers
  rw [UInt16.toNat_ofNat', Nat.mod_eq_of_lt short]

/-- The tree of the names orders the items by the names of their label sets. -/
theorem indexedValue_name {item : IndexItem} {key : List UInt8} (named : item.key = some key) {lfm : LFM}
    (encoded : key = lfm.encoded) : indexedValue nameIndex item = some (CString.at (nameBytes lfm.name)) := by
  have whole : key ++ [0] = stringBytes lfm.strings := by rw [encoded, encoded_append]
  rw [indexedValue, if_pos rfl, IndexItem.keyString, named, Option.map_some, whole]
  exact congrArg some (at_stringBytes _ _)

/-- The tree of a label orders the items by the value that the label has in their label sets. -/
theorem Consistent.indexedValue_iff (consistent : store.Consistent items []) {item : IndexItem} (mem : item ∈ items)
    {lfm : LFM} (encoded : item.keyBytes = lfm.encoded) {label : Nat} {matcher : KeyValue}
    (configured : store.indices[label]? = some matcher.key) :
    indexedValue (label + numSpecialIndices) item = some matcher.value ↔ lfm.Yields matcher := by
  have value := consistent.value mem configured
  rw [encoded, getKeyValue_eq] at value
  have other : ¬ label + numSpecialIndices = nameIndex := by
    rw [numSpecialIndices, nameIndex]
    omega
  rw [LFM.Yields, ← readLabel_some_iff store.debugBuild, value, indexedValue, if_neg other, Nat.add_sub_cancel]
  exact ⟨congrArg Except.ok, Except.ok.inj⟩

end

/-- A lookup in the tree of a label and a scan return the same keys if and only if every stored label set that the
matchers meet yields the label. -/
theorem findsSame_iff_yields {debugBuild : Bool} {indices : List CString} {store : Indexes}
    (reached : Reached debugBuild indices true store)
    (encoded : ∀ item ∈ store.listItems, ∃ lfm, encodeBinaryLfm lfm = .ok item.keyBytes)
    {indexNum : Nat} {matcher : KeyValue} {matchers : List KeyValue} (mem : matcher ∈ matchers)
    (tree : TreeOf indices indexNum matcher.key) :
    store.FindsSame indexNum matcher.value matchers ↔
      indexNum = nameIndex ∨
        ∀ lfm, store.Stores lfm → (∀ other ∈ matchers, lfm.Hits other) → lfm.Yields matcher := by
  obtain ⟨named, _, placeholders, consistent, none⟩ := reached.agrees
  rw [none rfl] at consistent
  rcases tree with ⟨rfl, name⟩ | ⟨label, configured, rfl⟩
  · refine iff_of_true ((findsSame_iff consistent (Or.inl rfl) _ _).mpr ?_) (Or.inl rfl)
    intro item there meets
    obtain ⟨lfm, binary⟩ := encoded item there
    have hits := (consistent.meets_iff there (of_encodeBinaryLfm binary) matchers).mp meets matcher mem
    rw [LFM.Hits, if_pos name] at hits
    rw [indexedValue_name (consistent.keyBytes there).1 (of_encodeBinaryLfm binary), hits, CString.at_bytes]
  · have inside : label < indices.length := (List.getElem?_eq_some_iff.mp configured).1
    have valid : store.LookupIndex (label + numSpecialIndices) := Or.inr ⟨by omega, by rw [named]; omega⟩
    have other : ¬ label + numSpecialIndices = nameIndex := by
      rw [numSpecialIndices, nameIndex]
      omega
    rw [← named] at configured
    rw [findsSame_iff consistent valid, or_iff_right other]
    constructor
    · rintro all lfm ⟨item, there, binary⟩ hits
      exact (consistent.indexedValue_iff there (of_encodeBinaryLfm binary) configured).mp
        (all item there ((consistent.meets_iff there (of_encodeBinaryLfm binary) matchers).mpr hits))
    · intro all item there meets
      obtain ⟨lfm, binary⟩ := encoded item there
      exact (consistent.indexedValue_iff there (of_encodeBinaryLfm binary) configured).mpr
        (all lfm ⟨item, there, binary⟩ ((consistent.meets_iff there (of_encodeBinaryLfm binary) matchers).mp meets))

/-- A lookup of `ab="1"` and a scan for it return the key of `m{ab="1"}`. -/
theorem findsSame_iff_yields_longerKey :
    ∃ store, Reached false [⟨[97, 98], by decide⟩] true store ∧
      store.listItems.map IndexItem.keyBytes = [[109, 0, 97, 98, 0, 49]] ∧
      store.FindsSame 3 ⟨[49], by decide⟩ [⟨⟨[97, 98], by decide⟩, ⟨[49], by decide⟩⟩] := by
  have start : Reached false [⟨[97, 98], by decide⟩] true (init false [⟨[97, 98], by decide⟩]) := .loaded .init nofun
  have stored := @Reached.get _ _ _ _ start [109, 0, 97, 98, 0, 49] ⟨by decide, by decide⟩ true 4096
    ⟨by decide, nofun⟩ _ rfl
  obtain ⟨store, reached, keys⟩ : ∃ store, Reached false [⟨[97, 98], by decide⟩] true store ∧
      store.listItems.map IndexItem.keyBytes = [[109, 0, 97, 98, 0, 49]] := ⟨_, stored, rfl⟩
  refine ⟨store, reached, keys, ?_⟩
  have binary : encodeBinaryLfm longerKey = .ok [109, 0, 97, 98, 0, 49] := by decide
  have only : ∀ item ∈ store.listItems, item.keyBytes = [109, 0, 97, 98, 0, 49] := fun item mem =>
    List.mem_singleton.mp (keys ▸ List.mem_map_of_mem mem)
  have given : (⟨⟨[97, 98], by decide⟩, ⟨[49], by decide⟩⟩ : KeyValue) ∈
      [(⟨⟨[97, 98], by decide⟩, ⟨[49], by decide⟩⟩ : KeyValue)] := List.mem_cons_self
  refine (findsSame_iff_yields reached (fun item mem => ⟨longerKey, binary.trans (congrArg _ (only item mem).symm)⟩)
    given (Or.inr ⟨0, rfl, rfl⟩)).mpr (Or.inr ?_)
  rintro lfm ⟨item, mem, encoded⟩ _
  have labels : lfm.labels = longerKey.labels := labels_of_encoded (by
    rw [← of_encodeBinaryLfm encoded, ← of_encodeBinaryLfm binary, only item mem])
  exact ⟨[], [], by rw [labels]; decide, nofun, nofun⟩

/-- The store with the key `m{ab="1"}` and an index for the label `b`: the scan for `b="1"` returns the key, and the
lookup does not. -/
theorem findsSame_longerKey :
    ∃ store, Reached false [⟨[98], by decide⟩] true store ∧
      encodeBinaryLfm longerKey = .ok [109, 0, 97, 98, 0, 49] ∧
      store.listItems.map IndexItem.keyBytes = [[109, 0, 97, 98, 0, 49]] ∧
      store.storageLookup 3 ⟨[49], by decide⟩ [98, 0, 49, 0] 1 100 0 10 = .ok [] ∧
      store.storageLookupWithoutIndex [98, 0, 49, 0] 1 100 0 10 =
        .ok (none, [6, 0, 109, 0, 97, 98, 0, 49], 1) ∧
      ¬ store.FindsSame 3 ⟨[49], by decide⟩ [⟨⟨[98], by decide⟩, ⟨[49], by decide⟩⟩] := by
  have start : Reached false [⟨[98], by decide⟩] true (init false [⟨[98], by decide⟩]) := .loaded .init nofun
  have stored := @Reached.get _ _ _ _ start [109, 0, 97, 98, 0, 49] ⟨by decide, by decide⟩ true 4096
    ⟨by decide, nofun⟩ _ rfl
  refine ⟨_, stored, by decide, rfl, rfl, rfl, ?_⟩
  intro same
  obtain ⟨looked, scanned, last, lookup, scan, keys⟩ := same 100 10 (by decide) (by decide)
  cases lookup
  cases scan
  exact absurd ((keys [109, 0, 97, 98, 0, 49]).mpr (by decide)) (by decide)

end Indexes

end Menoetius
