import Menoetius.QuerySelect

/-
This file shows when the answer to a query does not depend on the order of its matchers.
-/

namespace Menoetius
open LittleEndian

/-- A request for the keys that matchers meet, from the first one on. -/
def queryOf (flags limit : Nat) (matchers : List KeyValue) : QueryRequest :=
  ⟨flags, matchers.map fun matcher => (matcher.key.bytes, matcher.value.bytes), 0, limit⟩

theorem queryOf_matchers (flags limit : Nat) (matchers : List KeyValue) (indices : List CString) :
    ((queryOf flags limit matchers).query (indices.map CString.bytes)).matchers = matchersRead indices matchers :=
  List.foldl_map

theorem queryOf_labelMatches (flags limit : Nat) (matchers : List KeyValue) (indices : List CString) :
    ((queryOf flags limit matchers).query (indices.map CString.bytes)).matchers.labelMatches =
      stringBytes (labelStrings matchers) := by
  rw [queryOf_matchers, matchersRead_labelMatches]

theorem queryOf_numLabels (flags limit : Nat) (matchers : List KeyValue) (indices : List CString) :
    ((queryOf flags limit matchers).query (indices.map CString.bytes)).numLabels = matchers.length :=
  List.length_map _

/-- The matchers of a well-formed request can come in any order. -/
theorem queryOf_wellFormed {flags limit : Nat} {matchers order : List KeyValue} (perm : order.Perm matchers)
    (wellFormed : (queryOf flags limit matchers).WellFormed) : (queryOf flags limit order).WellFormed := by
  have pairs := perm.map fun matcher : KeyValue => (matcher.key.bytes, matcher.value.bytes)
  refine ⟨wellFormed.flags, ?_, ?_, wellFormed.offset, wellFormed.limit⟩
  · have few := wellFormed.few
    change (List.map _ matchers).length < 256 at few
    change (List.map _ order).length < 256
    rwa [pairs.length_eq]
  · have fits := wellFormed.fits
    change (labelBytes (List.map _ matchers)).length < _ at fits
    change (labelBytes (List.map _ order)).length < _
    rwa [labelBytes, (pairs.flatMap_right _).length_eq]

/-- The matchers of a key can come in any order. -/
theorem extraMatchersMatch_perm (key : List UInt8) (keyLen : UInt16) {first second : List KeyValue}
    (perm : first.Perm second) :
    extraMatchersMatch key keyLen first.length (stringBytes (labelStrings first)) =
      extraMatchersMatch key keyLen second.length (stringBytes (labelStrings second)) := by
  have turn : ∀ matcher matchers,
      extraMatchersMatch key keyLen (matcher :: matchers).length (stringBytes (labelStrings (matcher :: matchers))) = _ :=
    extraMatchersMatch_cons key keyLen
  induction perm with
  | nil => rfl
  | cons matcher _ ih => rw [turn, turn, ih]
  | swap matcher other rest =>
      rw [turn, turn, turn, turn]
      exact Bool.and_left_comm _ _ _
  | trans _ _ first second => exact first.trans second

/-- The key of an item has the label with the value of a matcher. -/
def Indexes.labelled (store : Indexes) (matcher : KeyValue) (item : IndexItem) : Bool :=
  decide (getKeyValue store.debugBuild (item.keyBytes ++ [0]) item.keyBytes.length matcher.key = .ok (some matcher.value))

/-- The items that the matchers meet, as `extra_matchers_match` tells. -/
def Indexes.met (store : Indexes) (matchers : List KeyValue) : List IndexItem :=
  store.listItems.filter fun item => item.meets (stringBytes (labelStrings matchers)) matchers.length

/-- The items are the same, or for both lists there are too many of them in the same way: they do not fit the buffer of
the connection, or not even that of the results. -/
def SentAlike (first second : List IndexItem) : Prop :=
  (∀ item, item ∈ first ↔ item ∈ second) ∨
    (connBufSize < (resultsOf first).length ∧ (resultsOf first).length ≤ maxLfmResults ∧
      connBufSize < (resultsOf second).length ∧ (resultsOf second).length ≤ maxLfmResults) ∨
    (maxLfmResults < (resultsOf first).length ∧ maxLfmResults < (resultsOf second).length)

section
variable {σ : Type} {data other : Conn σ} {query request : Query} {items : List IndexItem}

theorem SameOutcome.refl (outcome : Except Failure Answer) : SameOutcome outcome outcome := by
  cases outcome with
  | error failure => exact Or.inl ⟨failure, rfl, rfl⟩
  | ok answer => exact Or.inr ⟨answer, answer, rfl, rfl, rfl, fun _ => Iff.rfl⟩

theorem sameOutcome_ok_iff (left right : Answer) :
    SameOutcome (.ok left) (.ok right) ↔ left.status = right.status ∧ ∀ key, key ∈ left.keys ↔ key ∈ right.keys := by
  constructor
  · rintro (⟨failure, failed, _⟩ | ⟨_, _, ⟨⟩, ⟨⟩, same⟩)
    · cases failed
    · exact same
  · exact fun same => Or.inr ⟨left, right, rfl, rfl, same⟩

theorem sameOutcome_mixed (answer : Answer) (failure : Failure) :
    ¬ SameOutcome (.ok answer) (.error failure) ∧ ¬ SameOutcome (.error failure) (.ok answer) := by
  refine ⟨?_, ?_⟩
  · rintro (⟨_, failed, _⟩ | ⟨_, _, _, failed, _⟩) <;> cases failed
  · rintro (⟨_, _, failed⟩ | ⟨_, _, failed, _⟩) <;> cases failed

/-- The status of an answer tells whether there were too many keys. -/
theorem status_differs (data : Conn σ) :
    UInt8.ofNat (statusOf data statusTooManyMetrics) ≠ UInt8.ofNat (statusOf data 0) := by
  rw [statusOf, statusOf]
  cases data.hasValidConfig <;> decide

theorem statusOf_congr (same : data.hasValidConfig = other.hasValidConfig) (code : Nat) :
    statusOf data code = statusOf other code := by
  rw [statusOf, statusOf, same]

/-- The outcome of a query that looks items up has one of three forms. -/
theorem outcomeOf_cases (data : Conn σ) (found : ¬ query.Missing) (items : List IndexItem) :
    ((resultsOf items).length ≤ connBufSize ∧
      outcomeOf data query items = .ok ⟨items.map IndexItem.keyBytes, some (UInt8.ofNat (statusOf data 0))⟩) ∨
    (connBufSize < (resultsOf items).length ∧ (resultsOf items).length ≤ maxLfmResults ∧
      outcomeOf data query items = .error (.code .structuredStreamBufTooSmall)) ∨
    (maxLfmResults < (resultsOf items).length ∧
      outcomeOf data query items = .ok ⟨[], some (UInt8.ofNat (statusOf data statusTooManyMetrics))⟩) := by
  rw [outcomeOf, if_neg found]
  by_cases small : (resultsOf items).length ≤ connBufSize
  · exact Or.inl ⟨small, if_pos small⟩
  · rw [if_neg small]
    by_cases fits : (resultsOf items).length ≤ maxLfmResults
    · exact Or.inr (Or.inl ⟨Nat.not_le.mp small, fits, if_pos fits⟩)
    · exact Or.inr (Or.inr ⟨Nat.not_le.mp fits, if_neg fits⟩)

/-- Some of the items, each once and together with all that have its key. -/
structure Kept (items some : List IndexItem) : Prop where
  inside : ∀ item ∈ some, item ∈ items
  once : some.Nodup
  closed : ∀ item ∈ items, ∀ twin ∈ items, item.keyBytes = twin.keyBytes → (item ∈ some ↔ twin ∈ some)

theorem Kept.perm {some others : List IndexItem} (kept : Kept items some) (perm : others.Perm some) :
    Kept items others :=
  ⟨fun item mem => kept.inside item (perm.mem_iff.mp mem), perm.nodup_iff.mpr kept.once,
    fun item mem twin also same => perm.mem_iff.trans ((kept.closed item mem twin also same).trans perm.mem_iff.symm)⟩

theorem Kept.nil (items : List IndexItem) : Kept items [] :=
  ⟨fun _ mem => absurd mem List.not_mem_nil, List.nodup_nil,
    fun _ _ _ _ _ => iff_of_false List.not_mem_nil List.not_mem_nil⟩

theorem keys_iff {first second : List IndexItem} (keptFirst : Kept items first) (keptSecond : Kept items second) :
    (∀ key, key ∈ first.map IndexItem.keyBytes ↔ key ∈ second.map IndexItem.keyBytes) ↔
      ∀ item, item ∈ first ↔ item ∈ second := by
  constructor
  · refine fun keys item => ⟨fun mem => ?_, fun mem => ?_⟩
    · obtain ⟨twin, there, named⟩ := List.mem_map.mp ((keys item.keyBytes).mp (List.mem_map_of_mem mem))
      exact (keptSecond.closed item (keptFirst.inside item mem) twin (keptSecond.inside twin there) named.symm).mpr there
    · obtain ⟨twin, there, named⟩ := List.mem_map.mp ((keys item.keyBytes).mpr (List.mem_map_of_mem mem))
      exact (keptFirst.closed item (keptSecond.inside item mem) twin (keptFirst.inside twin there) named.symm).mpr there
  · intro members key
    rw [List.mem_map, List.mem_map]
    exact exists_congr fun item => and_congr_left fun _ => members item

/-- Two queries that look items up have the same outcome if and only if the items are sent alike. -/
theorem sameOutcome_iff {first second : List IndexItem} (keptFirst : Kept items first) (keptSecond : Kept items second)
    (same : data.hasValidConfig = other.hasValidConfig) (found : ¬ query.Missing) (asked : ¬ request.Missing) :
    SameOutcome (outcomeOf data query first) (outcomeOf other request second) ↔ SentAlike first second := by
  have order : connBufSize < maxLfmResults := by decide
  have sizes : SentAlike first second → (resultsOf first).length = (resultsOf second).length ∨
      (connBufSize < (resultsOf first).length ∧ (resultsOf first).length ≤ maxLfmResults ∧
        connBufSize < (resultsOf second).length ∧ (resultsOf second).length ≤ maxLfmResults) ∨
      (maxLfmResults < (resultsOf first).length ∧ maxLfmResults < (resultsOf second).length) :=
    Or.imp_left fun members => resultsOf_perm ((List.perm_ext_iff_of_nodup keptFirst.once keptSecond.once).mpr members)
  rcases outcomeOf_cases data found first with ⟨small, run⟩ | ⟨large, fits, run⟩ | ⟨above, run⟩
  · rcases outcomeOf_cases other asked second with ⟨little, also⟩ | ⟨much, least, also⟩ | ⟨more, also⟩
    · rw [run, also, sameOutcome_ok_iff, ← statusOf_congr same]
      refine ⟨fun alike => Or.inl ((keys_iff keptFirst keptSecond).mp alike.2), ?_⟩
      rintro (members | ⟨large, _⟩ | ⟨above, _⟩)
      · exact ⟨rfl, (keys_iff keptFirst keptSecond).mpr members⟩
      · omega
      · omega
    · rw [run, also]
      exact iff_of_false (sameOutcome_mixed _ _).1 fun alike => by have := sizes alike; omega
    · rw [run, also, sameOutcome_ok_iff, ← statusOf_congr same]
      exact iff_of_false (fun alike => status_differs data (Option.some_inj.mp alike.1.symm)) fun alike => by
        have := sizes alike
        omega
  · rcases outcomeOf_cases other asked second with ⟨little, also⟩ | ⟨much, least, also⟩ | ⟨more, also⟩
    · rw [run, also]
      exact iff_of_false (sameOutcome_mixed _ _).2 fun alike => by have := sizes alike; omega
    · rw [run, also]
      exact iff_of_true (SameOutcome.refl _) (Or.inr (Or.inl ⟨large, fits, much, least⟩))
    · rw [run, also]
      exact iff_of_false (sameOutcome_mixed _ _).2 fun alike => by have := sizes alike; omega
  · rcases outcomeOf_cases other asked second with ⟨little, also⟩ | ⟨much, least, also⟩ | ⟨more, also⟩
    · rw [run, also, sameOutcome_ok_iff, ← statusOf_congr same]
      exact iff_of_false (fun alike => status_differs data (Option.some_inj.mp alike.1)) fun alike => by
        have := sizes alike
        omega
    · rw [run, also]
      exact iff_of_false (sameOutcome_mixed _ _).1 fun alike => by have := sizes alike; omega
    · rw [run, also, ← statusOf_congr same]
      exact iff_of_true (SameOutcome.refl _) (Or.inr (Or.inr ⟨above, more⟩))

end

/-- A connection asks for the keys that matchers meet, in an order of these. -/
structure Conn.AsksFor {σ : Type} (data : Conn σ) (storage : σ) (flags limit : Nat) (order : List KeyValue) : Prop where
  asked : data.Asked (queryOf flags limit order)
  storage : data.storage = storage

/-- The handler answers with one status and the same keys, in whatever order the matchers come. -/
def AnswersAlike {σ : Type} (calls : StorageCalls σ) (storage : σ) (flags limit : Nat) (matchers : List KeyValue) : Prop :=
  ∀ first second, first.Perm matchers → second.Perm matchers →
    ∀ data other : Conn σ, data.AsksFor storage flags limit first → other.AsksFor storage flags limit second →
      data.hasValidConfig = other.hasValidConfig →
      SameOutcome (handleConnQueryOutcome calls data) (handleConnQueryOutcome calls other)

/-- A full scan is forced, or all labels that decide leave the same keys, or there is no configured label and the name
is not searched with the value of another matcher, or such a search makes no difference. -/
def OrderFree (store : Indexes) (flags : Nat) (matchers : List KeyValue) : Prop :=
  flags.testBit 1 = true ∨
    ((∃ matcher ∈ matchers, matcher.key ≠ nameKey ∧ matcher.key ∈ store.indices) ∧
      ∀ first second, Decides store.indices matchers first → Decides store.indices matchers second →
        SentAlike ((store.met matchers).filter (store.labelled first)) ((store.met matchers).filter (store.labelled second))) ∨
    ((∀ matcher ∈ matchers, matcher.key ≠ nameKey → matcher.key ∉ store.indices) ∧
      ∀ name ∈ matchers, name.key = nameKey →
        (∀ other ∈ matchers, other.value = name.value) ∨ store.met matchers = [])

section
variable {σ : Type} {calls : StorageCalls σ} {view : σ → Indexes} {data : Conn σ} {store : Indexes}
  {items : List IndexItem} {flags limit : Nat} {matchers order : List KeyValue}

theorem met_perm (store : Indexes) (perm : order.Perm matchers) : store.met order = store.met matchers := by
  rw [Indexes.met, Indexes.met]
  refine List.filter_congr fun item _ => ?_
  rw [IndexItem.meets, IndexItem.meets, extraMatchersMatch_perm _ _ perm]

theorem Indexes.Consistent.mem_met (consistent : store.Consistent items []) {item : IndexItem} :
    item ∈ store.met matchers ↔
      item ∈ items ∧ item.meets (stringBytes (labelStrings matchers)) matchers.length = true := by
  rw [Indexes.met, consistent.listItems, List.mem_filter]

/-- A scan asks for all items that the matchers meet. -/
theorem queried_scan (consistent : store.Consistent items []) (perm : order.Perm matchers)
    (few : (store.met matchers).length ≤ limit)
    (scanned : ((queryOf flags limit order).query (store.indices.map CString.bytes)).lookupIndex = none) :
    store.queried ((queryOf flags limit order).query (store.indices.map CString.bytes)) = store.met matchers := by
  have start : ((queryOf flags limit order).query (store.indices.map CString.bytes)).start = 0 := ite_self _
  have all : store.met order =
      (store.scanItems 0).filter fun item => item.meets (stringBytes (labelStrings order)) order.length := by
    rw [Indexes.met, consistent.listItems, consistent.scanItems]
  rw [← met_perm store perm] at few ⊢
  rw [Indexes.queried, scanned, start]
  dsimp only
  rw [queryOf_labelMatches, queryOf_numLabels, pageOf, List.drop_zero, ← all]
  exact List.take_of_length_le few

/-- A lookup asks for those items among them that have the value in the tree. -/
theorem queried_lookup (consistent : store.Consistent items []) (perm : order.Perm matchers)
    (few : (store.met matchers).length ≤ limit) {indexNum : Nat}
    (looked : ((queryOf flags limit order).query (store.indices.map CString.bytes)).lookupIndex = some indexNum)
    (valid : store.LookupIndex indexNum) {value : CString}
    (latched : ((queryOf flags limit order).query (store.indices.map CString.bytes)).value = value) :
    (store.queried ((queryOf flags limit order).query (store.indices.map CString.bytes))).Perm
      ((store.met matchers).filter fun item => Indexes.indexedValue indexNum item = some value) := by
  have matched := consistent.matched_perm valid value (stringBytes (labelStrings order)) order.length
  have same : (items.filter fun item => Indexes.indexedValue indexNum item = some value &&
      item.meets (stringBytes (labelStrings order)) order.length) =
      (store.met matchers).filter fun item => Indexes.indexedValue indexNum item = some value := by
    rw [← met_perm store perm, Indexes.met, consistent.listItems, List.filter_filter]
  rw [same] at matched
  have few : (store.matched indexNum value (stringBytes (labelStrings order)) order.length).length ≤ limit := by
    rw [matched.length_eq]
    exact (List.length_filter_le _ _).trans few
  rw [Indexes.queried, looked]
  dsimp only
  rw [latched, queryOf_labelMatches, queryOf_numLabels]
  change ((List.drop 0 _).take limit).Perm _
  rw [List.drop_zero, List.take_of_length_le few]
  exact matched

/-- The matcher of the name compares the name of a key. -/
theorem name_of_meets {key : List UInt8} {keyLen : UInt16}
    (meets : extraMatchersMatch key keyLen matchers.length (stringBytes (labelStrings matchers)) = true)
    {name : KeyValue} (mem : name ∈ matchers) (named : name.key = nameKey) : CString.at key = name.value := by
  induction matchers with
  | nil => cases mem
  | cons matcher rest ih =>
      rw [List.length_cons, extraMatchersMatch_cons, Bool.and_eq_true] at meets
      rcases List.mem_cons.mp mem with rfl | later
      · have first := meets.1
        rw [if_pos named] at first
        exact of_decide_eq_true first
      · exact ih meets.2 later

/-- A search in the tree of the names finds all items that the matchers meet, or none if it is for another name. -/
theorem met_named (consistent : store.Consistent items []) {name : KeyValue} (mem : name ∈ matchers)
    (named : name.key = nameKey) (value : CString) :
    (store.met matchers).filter (fun item => Indexes.indexedValue nameIndex item = some value) =
      if value = name.value then store.met matchers else [] := by
  have names : ∀ item ∈ store.met matchers, Indexes.indexedValue nameIndex item = some name.value := by
    intro item inside
    obtain ⟨there, meets⟩ := consistent.mem_met.mp inside
    rw [Indexes.indexedValue, if_pos rfl, IndexItem.keyString, (consistent.keyBytes there).1, Option.map_some,
      name_of_meets meets mem named]
  split
  · next same =>
    exact List.filter_eq_self.mpr fun item inside => decide_eq_true (by rw [names item inside, same])
  · next other =>
    refine List.filter_eq_nil_iff.mpr fun item inside found => other ?_
    exact Option.some_inj.mp ((of_decide_eq_true found).symm.trans (names item inside))

/-- The tree of a label tells which items have the label. -/
theorem met_labelled (consistent : store.Consistent items []) {label : Nat} {matcher : KeyValue}
    (configured : store.indices[label]? = some matcher.key) :
    (store.met matchers).filter (fun item => Indexes.indexedValue (label + numSpecialIndices) item = some matcher.value) =
      (store.met matchers).filter (store.labelled matcher) := by
  have other : ¬ label + numSpecialIndices = nameIndex := by
    rw [numSpecialIndices, nameIndex]
    omega
  refine List.filter_congr fun item inside => ?_
  have value := consistent.value (consistent.mem_met.mp inside).1 configured
  rw [Indexes.labelled, value, Indexes.indexedValue, if_neg other, Nat.add_sub_cancel]
  exact decide_eq_decide.mpr ⟨congrArg Except.ok, Except.ok.inj⟩

/-- What a query asks for whose scan is not forced. -/
inductive AsksFor (store : Indexes) (matchers order : List KeyValue) (query : Query) : Prop
  | scan (index : query.matchers.indexNum = none)
      (others : ∀ matcher ∈ matchers, matcher.key ≠ nameKey ∧ matcher.key ∉ store.indices)
      (all : query.lookupIndex = none → (store.queried query).Perm (store.met matchers))
  | name {name first : KeyValue} (index : query.matchers.indexNum = some nameIndex)
      (others : ∀ matcher ∈ matchers, matcher.key ≠ nameKey → matcher.key ∉ store.indices)
      (mem : name ∈ matchers) (named : name.key = nameKey) (head : order.head? = some first)
      (some : (store.queried query).Perm (if first.value = name.value then store.met matchers else []))
  | label {label : Nat} {matcher : KeyValue} (index : query.matchers.indexNum = some (label + numSpecialIndices))
      (others : ∃ matcher ∈ matchers, matcher.key ≠ nameKey ∧ matcher.key ∈ store.indices)
      (decides : Decides store.indices matchers matcher) (here : store.indices[label]? = some matcher.key)
      (some : (store.queried query).Perm ((store.met matchers).filter (store.labelled matcher)))

theorem asksFor_order (consistent : store.Consistent items []) (distinct : (matchers.map KeyValue.key).Nodup)
    (perm : order.Perm matchers) (few : (store.met matchers).length ≤ limit) (unforced : ¬ flags.testBit 1 = true) :
    AsksFor store matchers order ((queryOf flags limit order).query (store.indices.map CString.bytes)) := by
  have selection := selection_read store.indices ((perm.map KeyValue.key).nodup_iff.mpr distinct)
  have index : ((queryOf flags limit order).query (store.indices.map CString.bytes)).matchers.indexNum =
      (matchersRead store.indices order).indexNum := by rw [queryOf_matchers]
  have looked : ((queryOf flags limit order).query (store.indices.map CString.bytes)).lookupIndex =
      (matchersRead store.indices order).indexNum := (if_neg unforced).trans index
  have latched : ∀ {matcher}, LatchedAt order (matchersRead store.indices order).indexVal matcher →
      ((queryOf flags limit order).query (store.indices.map CString.bytes)).value = matcher.value := by
    intro matcher found
    rw [Query.value, queryOf_matchers, matchersRead_labelMatches, found.value]
  cases selection with
  | nothing none others =>
      exact .scan (index.trans none) (fun matcher mem => others matcher (perm.mem_iff.mpr mem)) fun scanned =>
        List.Perm.of_eq (queried_scan consistent perm few scanned)
  | name selected named others head =>
      obtain ⟨name, mem, called⟩ := named
      obtain ⟨first, rest, split⟩ : ∃ first rest, order = first :: rest :=
        List.exists_cons_of_ne_nil (List.ne_nil_of_mem mem)
      have headed : order.head? = some first := by rw [split]; rfl
      refine .name (index.trans selected) (fun matcher inside => others matcher (perm.mem_iff.mpr inside))
        (perm.mem_iff.mp mem) called headed ?_
      rw [← met_named consistent (perm.mem_iff.mp mem) called]
      exact queried_lookup consistent perm few (looked.trans selected) (Or.inl rfl) (latched (head first headed))
  | @label label matcher selected here place others named =>
      have mem : matcher ∈ order := by
        obtain ⟨front, back, split, _⟩ := place
        rw [split]
        exact List.mem_append_right _ List.mem_cons_self
      have inside : label < store.indices.length := (List.getElem?_eq_some_iff.mp here).1
      have configured : matcher.key ∈ store.indices := List.mem_of_getElem? here
      refine .label (index.trans selected) ?_ ⟨perm.mem_iff.mp mem, configured, ?_⟩ here ?_
      · by_cases called : matcher.key = nameKey
        · obtain ⟨other, there, rest⟩ := named called
          exact ⟨other, perm.mem_iff.mp there, rest⟩
        · exact ⟨matcher, perm.mem_iff.mp mem, called, configured⟩
      · intro other there taken unnamed differs
        obtain ⟨i, less, stands⟩ := others other (perm.mem_iff.mpr there) taken unnamed differs
        exact ⟨i, label, less, stands, here⟩
      · rw [← met_labelled consistent here]
        exact queried_lookup consistent perm few (looked.trans selected) (Or.inr ⟨Nat.le_add_left _ _, by omega⟩)
          (latched place)

theorem SentAlike.congr {first second others more : List IndexItem} (perm : others.Perm first) (also : more.Perm second) :
    SentAlike others more ↔ SentAlike first second := by
  rw [SentAlike, SentAlike, resultsOf_perm perm, resultsOf_perm also]
  exact or_congr_left (forall_congr' fun item => iff_congr perm.mem_iff also.mem_iff)

theorem Indexes.Consistent.kept (consistent : store.Consistent items []) {keeps : IndexItem → Bool}
    (closed : ∀ item twin, item.keyBytes = twin.keyBytes → keeps item = keeps twin) :
    Kept items ((store.met matchers).filter keeps) := by
  refine ⟨fun item mem => (consistent.mem_met.mp (List.mem_of_mem_filter mem)).1, ?_, ?_⟩
  · rw [Indexes.met, consistent.listItems]
    exact (consistent.list.nodup.filter _).filter _
  · intro item mem twin also same
    rw [List.mem_filter, List.mem_filter, consistent.mem_met, consistent.mem_met, closed item twin same,
      IndexItem.meets, IndexItem.meets, same, and_iff_right mem, and_iff_right also]

theorem Indexes.Consistent.kept_labelled (consistent : store.Consistent items []) (matcher : KeyValue) :
    Kept items ((store.met matchers).filter (store.labelled matcher)) :=
  consistent.kept fun item twin same => by rw [Indexes.labelled, Indexes.labelled, same]

theorem Indexes.Consistent.kept_met (consistent : store.Consistent items []) : Kept items (store.met matchers) := by
  have all := @Indexes.Consistent.kept store items matchers consistent (fun _ => true) fun _ _ _ => rfl
  rwa [List.filter_true] at all

/-- A connection with a request in its socket. -/
def askingConn (storage : σ) (request : QueryRequest) : Conn σ where
  ss := { structuredStreamNew connBufSize connBufSize fun _ => 0 with incoming := request.bytes }
  hasValidConfig := false
  storage := storage
  clusterConfig := none
  clusterConfigHash := []

theorem askingConn_asksFor (storage : σ) (flags limit : Nat) (order : List KeyValue) :
    (askingConn storage (queryOf flags limit order)).AsksFor storage flags limit order :=
  ⟨⟨⟨Nat.zero_le _, Nat.zero_le _⟩, rfl, rfl, List.prefix_refl _⟩, rfl⟩

/-- The outcome of a connection that asks. -/
theorem Conn.AsksFor.outcome {storage : σ} (asks : data.AsksFor storage flags limit order) (looks : LooksUp calls view)
    (consistent : (view storage).Consistent items []) (configured : calls.indices = (view storage).indices.map CString.bytes)
    (perm : order.Perm matchers) (wellFormed : (queryOf flags limit matchers).WellFormed) :
    handleConnQueryOutcome calls data =
      outcomeOf data ((queryOf flags limit order).query ((view storage).indices.map CString.bytes))
        ((view storage).queried ((queryOf flags limit order).query ((view storage).indices.map CString.bytes))) := by
  obtain ⟨asked, rfl⟩ := asks
  rw [handleConnQueryOutcome_eq looks consistent configured asked (queryOf_wellFormed perm wellFormed) rfl, configured]

/-- Two orders have the same outcome if the queries ask for items that are sent alike. -/
theorem sameOutcome_orders {other : Conn σ} {query request : Query} {first second : List IndexItem}
    (same : data.hasValidConfig = other.hasValidConfig) (keptFirst : Kept items first) (keptSecond : Kept items second)
    (asked : (store.queried query).Perm first) (also : (store.queried request).Perm second) (found : ¬ query.Missing)
    (looked : ¬ request.Missing) :
    SameOutcome (outcomeOf data query (store.queried query)) (outcomeOf other request (store.queried request)) ↔
      SentAlike first second := by
  rw [sameOutcome_iff (keptFirst.perm asked) (keptSecond.perm also) same found looked]
  exact SentAlike.congr asked also

theorem SentAlike.refl (some : List IndexItem) : SentAlike some some := Or.inl fun _ => Iff.rfl

theorem not_missing {query : Query} {indexNum : Nat} (index : query.matchers.indexNum = some indexNum) :
    ¬ query.Missing := fun missing => by
  have none := missing.2.1
  rw [index] at none
  cases none

theorem sentAlike_nil {some : List IndexItem} (alike : SentAlike some []) : some = [] := by
  have empty : (resultsOf []).length = 0 := rfl
  rcases alike with members | ⟨_, _, large, _⟩ | ⟨_, large⟩
  · exact List.eq_nil_iff_forall_not_mem.mpr fun item mem => absurd ((members item).mp mem) List.not_mem_nil
  · rw [empty] at large
    exact absurd large (Nat.not_lt_zero _)
  · rw [empty] at large
    exact absurd large (Nat.not_lt_zero _)

theorem one_with_key (distinct : (matchers.map KeyValue.key).Nodup) {first second : KeyValue} (inFirst : first ∈ matchers)
    (inSecond : second ∈ matchers) (same : first.key = second.key) : first = second :=
  List.inj_on_of_nodup_map distinct inFirst inSecond same

/-- Some order of the matchers asks for the items with the label of a matcher that decides. -/
theorem Decides.queried (consistent : store.Consistent items []) (distinct : (matchers.map KeyValue.key).Nodup)
    (few : (store.met matchers).length ≤ limit) (unforced : ¬ flags.testBit 1 = true)
    (taken : ∃ other ∈ matchers, other.key ≠ nameKey ∧ other.key ∈ store.indices) {matcher : KeyValue}
    (decides : Decides store.indices matchers matcher) :
    ∃ order, order.Perm matchers ∧ ¬ ((queryOf flags limit order).query (store.indices.map CString.bytes)).Missing ∧
      (store.queried ((queryOf flags limit order).query (store.indices.map CString.bytes))).Perm
        ((store.met matchers).filter (store.labelled matcher)) := by
  obtain ⟨order, perm, label, selected, here⟩ := decides.order distinct fun _ => taken
  have index : ((queryOf flags limit order).query (store.indices.map CString.bytes)).matchers.indexNum =
      some (label + numSpecialIndices) := by rw [queryOf_matchers, selected]
  refine ⟨order, perm, not_missing index, ?_⟩
  cases asksFor_order consistent distinct perm few unforced with
  | scan none =>
      rw [index] at none
      cases none
  | name other =>
      rw [index] at other
      cases other
  | @label place chosen other _ decided stands some =>
      rw [index] at other
      obtain rfl : label = place := Nat.add_right_cancel (Option.some_inj.mp other)
      rw [one_with_key distinct decides.1 decided.1 (Option.some_inj.mp (here.symm.trans stands))]
      exact some

/-- Without a configured label, the tree of the names is searched with the value of the first matcher. -/
theorem asksFor_headed (consistent : store.Consistent items []) (distinct : (matchers.map KeyValue.key).Nodup)
    (few : (store.met matchers).length ≤ limit) (unforced : ¬ flags.testBit 1 = true)
    (free : ∀ other ∈ matchers, other.key ≠ nameKey → other.key ∉ store.indices) {name : KeyValue} (mem : name ∈ matchers)
    (named : name.key = nameKey) {head : KeyValue} {rest : List KeyValue} (perm : (head :: rest).Perm matchers) :
    ¬ ((queryOf flags limit (head :: rest)).query (store.indices.map CString.bytes)).Missing ∧
      (store.queried ((queryOf flags limit (head :: rest)).query (store.indices.map CString.bytes))).Perm
        (if head.value = name.value then store.met matchers else []) := by
  cases asksFor_order consistent distinct perm few unforced with
  | scan _ others => exact absurd named (others name mem).1
  | @name other first index _ there called headed some =>
      cases headed
      rw [one_with_key distinct mem there (named.trans called.symm)]
      exact ⟨not_missing index, some⟩
  | label _ taken =>
      obtain ⟨other, there, unnamed, inside⟩ := taken
      exact absurd inside (free other there unnamed)

/-- The answers to a query are the same in every order of its matchers if and only if the order is free. -/
theorem handleConnQueryLfms_orderFree_iff (looks : LooksUp calls view) {debugBuild : Bool} {indices : List CString}
    {storage : σ} (reached : Indexes.Reached debugBuild indices true (view storage))
    (configured : calls.indices = indices.map CString.bytes) (distinct : (matchers.map KeyValue.key).Nodup)
    (wellFormed : (queryOf flags limit matchers).WellFormed) (few : ((view storage).met matchers).length ≤ limit) :
    AnswersAlike calls storage flags limit matchers ↔ OrderFree (view storage) flags matchers := by
  obtain ⟨named, _, placeholders, consistent, none⟩ := reached.agrees
  rw [none rfl] at consistent
  rw [← named] at configured
  have keptMet := @Indexes.Consistent.kept_met (view storage) _ matchers consistent
  constructor
  · intro alike
    by_cases forced : flags.testBit 1 = true
    · exact Or.inl forced
    · have outcomes : ∀ first second, first.Perm matchers → second.Perm matchers →
          SameOutcome
            (outcomeOf (askingConn storage (queryOf flags limit first))
              ((queryOf flags limit first).query ((view storage).indices.map CString.bytes))
              ((view storage).queried ((queryOf flags limit first).query ((view storage).indices.map CString.bytes))))
            (outcomeOf (askingConn storage (queryOf flags limit second))
              ((queryOf flags limit second).query ((view storage).indices.map CString.bytes))
              ((view storage).queried ((queryOf flags limit second).query ((view storage).indices.map CString.bytes)))) := by
        intro first second perm also
        have outcome := alike first second perm also _ _ (askingConn_asksFor storage flags limit first)
          (askingConn_asksFor storage flags limit second) rfl
        rwa [(askingConn_asksFor storage flags limit first).outcome looks consistent configured perm wellFormed,
          (askingConn_asksFor storage flags limit second).outcome looks consistent configured also wellFormed] at outcome
      by_cases taken : ∃ matcher ∈ matchers, matcher.key ≠ nameKey ∧ matcher.key ∈ (view storage).indices
      · refine Or.inr (Or.inl ⟨taken, fun first second decidesFirst decidesSecond => ?_⟩)
        obtain ⟨order, perm, found, asked⟩ := decidesFirst.queried consistent distinct few forced taken
        obtain ⟨other, also, looked, queried⟩ := decidesSecond.queried consistent distinct few forced taken
        exact (sameOutcome_orders rfl (consistent.kept_labelled first) (consistent.kept_labelled second) asked queried
          found looked).mp (outcomes order other perm also)
      · have unconfigured : ∀ matcher ∈ matchers, matcher.key ≠ nameKey → matcher.key ∉ (view storage).indices :=
          fun matcher mem unnamed inside => taken ⟨matcher, mem, unnamed, inside⟩
        refine Or.inr (Or.inr ⟨unconfigured, fun name mem called => ?_⟩)
        by_contra neither
        obtain ⟨differs, some⟩ := not_or.mp neither
        obtain ⟨other, there, unlike⟩ : ∃ other ∈ matchers, other.value ≠ name.value := by
          by_contra all
          exact differs fun other there => by_contra fun unlike => all ⟨other, there, unlike⟩
        have perm := (List.perm_cons_erase mem).symm
        have also := (List.perm_cons_erase there).symm
        obtain ⟨found, asked⟩ := @asksFor_headed (view storage) _ flags limit matchers consistent distinct few forced
          unconfigured name mem called name _ perm
        obtain ⟨looked, queried⟩ := @asksFor_headed (view storage) _ flags limit matchers consistent distinct few forced
          unconfigured name mem called other _ also
        rw [if_pos rfl] at asked
        rw [if_neg unlike] at queried
        exact some (sentAlike_nil ((sameOutcome_orders rfl keptMet (Kept.nil _)
          asked queried found looked).mp (outcomes _ _ perm also)))
  · intro free first second perm also data other asks asksOther same
    rw [asks.outcome looks consistent configured perm wellFormed,
      asksOther.outcome looks consistent configured also wellFormed]
    by_cases forced : flags.testBit 1 = true
    · have scanned : ∀ order, order.Perm matchers →
          ((view storage).queried ((queryOf flags limit order).query ((view storage).indices.map CString.bytes))).Perm
            ((view storage).met matchers) := fun order perm =>
        List.Perm.of_eq (queried_scan consistent perm few (if_pos forced))
      have found : ∀ order, ¬ ((queryOf flags limit order).query ((view storage).indices.map CString.bytes)).Missing :=
        fun order missing => absurd (forced.symm.trans missing.1) (by decide)
      exact (sameOutcome_orders same keptMet keptMet (scanned first perm) (scanned second also) (found first)
        (found second)).mpr (SentAlike.refl _)
    · replace free := free.resolve_left forced
      have asked := asksFor_order consistent distinct perm few forced
      cases asksFor_order consistent distinct also few forced with
      | scan index others all =>
          cases asked with
          | scan unset _ every =>
              by_cases allowed : flags.testBit 0 = true
              · have found : ∀ order,
                    ¬ ((queryOf flags limit order).query ((view storage).indices.map CString.bytes)).Missing :=
                  fun order missing => absurd (allowed.symm.trans missing.2.2) (by decide)
                exact (sameOutcome_orders same keptMet keptMet (every ((if_neg forced).trans unset))
                  (all ((if_neg forced).trans index)) (found first) (found second)).mpr (SentAlike.refl _)
              · have unforced := Bool.eq_false_iff.mpr forced
                have denied := Bool.eq_false_iff.mpr allowed
                rw [outcomeOf, outcomeOf, if_pos ⟨unforced, unset, denied⟩, if_pos ⟨unforced, index, denied⟩,
                  statusOf_congr same]
                exact SameOutcome.refl _
          | name _ _ mem called => exact absurd called (others _ mem).1
          | label _ taken =>
              obtain ⟨other, there, _, inside⟩ := taken
              exact absurd inside (others other there).2
      | @name name head index others mem called headed some =>
          cases asked with
          | scan _ free => exact absurd called (free name mem).1
          | @name twin top unset _ there named topped also =>
              obtain rfl := one_with_key distinct mem there (called.trans named.symm)
              have keptEither : ∀ value, Kept (view storage).listItems
                  (if value = name.value then (view storage).met matchers else []) := by
                intro value
                split
                · exact keptMet
                · exact Kept.nil _
              refine (sameOutcome_orders same (keptEither _) (keptEither _) also some (not_missing unset)
                (not_missing index)).mpr ?_
              rcases free with ⟨⟨other, there, unnamed, inside⟩, _⟩ | ⟨_, values⟩
              · exact absurd inside (others other there unnamed)
              · rcases values name mem called with all | empty
                · rw [all top (perm.mem_iff.mp (List.mem_of_mem_head? topped)),
                    all head (‹second.Perm matchers›.mem_iff.mp (List.mem_of_mem_head? headed))]
                  exact SentAlike.refl _
                · rw [empty, ite_self, ite_self]
                  exact SentAlike.refl _
          | label _ taken =>
              obtain ⟨other, there, unnamed, inside⟩ := taken
              exact absurd inside (others other there unnamed)
      | @label label matcher index taken decides _ some =>
          obtain ⟨taker, there, unnamed, inside⟩ := taken
          cases asked with
          | scan _ others => exact absurd inside (others taker there).2
          | name _ others => exact absurd inside (others taker there unnamed)
          | @label place decider unset _ decided _ part =>
              refine (sameOutcome_orders same (consistent.kept_labelled decider) (consistent.kept_labelled matcher) part
                some (not_missing unset) (not_missing index)).mpr ?_
              rcases free with ⟨_, alike⟩ | ⟨others, _⟩
              · exact alike decider matcher decided decides
              · exact absurd inside (others taker there unnamed)

end

/-- The matchers `__name__="m"` and `b="1"`. -/
def nameFirst : List KeyValue := [⟨nameKey, CString.at [109]⟩, ⟨CString.at [98], CString.at [49]⟩]

/-- The matchers `a="1"` and `b="1"`. -/
def twoLabels : List KeyValue := [⟨CString.at [97], CString.at [49]⟩, ⟨CString.at [98], CString.at [49]⟩]

/-- With an index for `a`, the order of `a="1"` and `b="1"` does not matter. -/
theorem handleConnQueryLfms_orderFree_twoLabels :
    ∃ store, Indexes.Reached false [⟨[97], by decide⟩] true store ∧
      store.listItems.map IndexItem.keyBytes = [[109, 0, 97, 0, 49, 0, 98, 0, 49]] ∧
      AnswersAlike (queryCalls [⟨[97], by decide⟩]) store 0 10 twoLabels := by
  have start : Indexes.Reached false [⟨[97], by decide⟩] true (Indexes.init false [⟨[97], by decide⟩]) :=
    .loaded .init nofun
  have stored := @Indexes.Reached.get _ _ _ _ start [109, 0, 97, 0, 49, 0, 98, 0, 49] ⟨by decide, by decide⟩ true 4096
    ⟨by decide, nofun⟩ _ rfl
  refine ⟨_, stored, rfl, ?_⟩
  have wellFormed : (queryOf 0 10 twoLabels).WellFormed := ⟨by decide, by decide, by decide, by decide, by decide⟩
  refine (handleConnQueryLfms_orderFree_iff (queryCalls_looksUp [⟨[97], by decide⟩]) stored rfl (by decide) wellFormed
    (by decide)).mpr (Or.inr (Or.inl ⟨⟨_, List.mem_cons_self, by decide, by decide⟩, ?_⟩))
  intro first second decidesFirst decidesSecond
  have one : first.key = second.key :=
    (List.mem_singleton.mp decidesFirst.2.1).trans (List.mem_singleton.mp decidesSecond.2.1).symm
  rw [one_with_key (by decide) decidesFirst.1 decidesSecond.1 one]
  exact SentAlike.refl _

/-- The key `m{b="1"}` is found if the name comes first, and it is not found if the label comes first. -/
theorem handleConnQueryLfms_nameLast :
    ∃ store, Indexes.Reached false [] true store ∧ store.listItems.map IndexItem.keyBytes = [[109, 0, 98, 0, 49]] ∧
      handleConnQueryOutcome (queryCalls []) (askingConn store (queryOf 0 10 nameFirst)) =
        .ok ⟨[[109, 0, 98, 0, 49]], some 128⟩ ∧
      handleConnQueryOutcome (queryCalls []) (askingConn store (queryOf 0 10 nameFirst.reverse)) = .ok ⟨[], some 128⟩ ∧
      ¬ AnswersAlike (queryCalls []) store 0 10 nameFirst := by
  have start : Indexes.Reached false [] true (Indexes.init false []) := .loaded .init nofun
  have stored := @Indexes.Reached.get _ _ _ _ start [109, 0, 98, 0, 49] ⟨by decide, by decide⟩ true 4096
    ⟨by decide, nofun⟩ _ rfl
  obtain ⟨_, _, placeholders, consistent, none⟩ := stored.agrees
  rw [none rfl] at consistent
  have wellFormed : (queryOf 0 10 nameFirst).WellFormed := ⟨by decide, by decide, by decide, by decide, by decide⟩
  have first := (askingConn_asksFor _ 0 10 nameFirst).outcome (queryCalls_looksUp []) consistent rfl (.refl _) wellFormed
  have second := (askingConn_asksFor _ 0 10 nameFirst.reverse).outcome (queryCalls_looksUp []) consistent rfl
    (List.reverse_perm _) wellFormed
  have found : handleConnQueryOutcome (queryCalls []) (askingConn _ (queryOf 0 10 nameFirst)) =
      .ok ⟨[[109, 0, 98, 0, 49]], some 128⟩ := first.trans rfl
  have missed : handleConnQueryOutcome (queryCalls []) (askingConn _ (queryOf 0 10 nameFirst.reverse)) =
      .ok ⟨[], some 128⟩ := second.trans rfl
  refine ⟨_, stored, rfl, found, missed, fun alike => ?_⟩
  have same := alike nameFirst nameFirst.reverse (.refl _) (List.reverse_perm _) _ _
    (askingConn_asksFor _ 0 10 nameFirst) (askingConn_asksFor _ 0 10 nameFirst.reverse) rfl
  rw [found, missed, sameOutcome_ok_iff] at same
  exact absurd ((same.2 [109, 0, 98, 0, 49]).mp List.mem_cons_self) List.not_mem_nil

end Menoetius
