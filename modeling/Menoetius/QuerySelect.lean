import Menoetius.QueryAnswer

/-
This file shows which tree a query is looked up in, and with which value.
-/

namespace Menoetius

/-- What the handler has read of the matchers of a query. -/
def matchersRead (indices : List CString) (matchers : List KeyValue) : Matchers :=
  matchers.foldl
    (fun state matcher => state.added (indices.map CString.bytes) (matcher.key.bytes, matcher.value.bytes)) ⟨none, none, []⟩

theorem matchersRead_concat (indices : List CString) (front : List KeyValue) (matcher : KeyValue) :
    matchersRead indices (front ++ [matcher]) =
      (matchersRead indices front).added (indices.map CString.bytes) (matcher.key.bytes, matcher.value.bytes) := by
  rw [matchersRead, List.foldl_append]
  rfl

theorem labelStrings_append (front back : List KeyValue) :
    labelStrings (front ++ back) = labelStrings front ++ labelStrings back := List.flatMap_append

theorem stringBytes_append (front back : List CString) :
    stringBytes (front ++ back) = stringBytes front ++ stringBytes back := by
  induction front with
  | nil => rfl
  | cons text rest ih => rw [List.cons_append, stringBytes_cons, stringBytes_cons, ih, List.append_assoc, List.cons_append]

theorem matchersRead_labelMatches (indices : List CString) (matchers : List KeyValue) :
    (matchersRead indices matchers).labelMatches = stringBytes (labelStrings matchers) := by
  induction matchers using List.reverseRecOn with
  | nil => rfl
  | append_singleton front matcher ih =>
      rw [matchersRead_concat, labelStrings_append, stringBytes_append, ← ih]
      change ((matchersRead indices front).labelMatches ++ (matcher.key.bytes ++ [0])) ++ (matcher.value.bytes ++ [0]) = _
      rw [List.append_assoc]
      congr 1
      rw [labelStrings_cons, stringBytes_cons, stringBytes_cons, List.append_assoc]
      rfl

/-- A search for a label name from a place on finds its first place there, or none. -/
theorem findName (indices : List CString) (start : Nat) (key : CString) :
    (∃ d, ((indices.map CString.bytes).drop start).findIdx? (fun name => name = key.bytes) = some d ∧
      indices[start + d]? = some key ∧ ∀ i, start ≤ i → i < start + d → indices[i]? ≠ some key) ∨
    (((indices.map CString.bytes).drop start).findIdx? (fun name => name = key.bytes) = none ∧
      ∀ i, start ≤ i → indices[i]? ≠ some key) := by
  have name : ∀ i, start ≤ i → ∀ {text}, indices[i]? = some text →
      ((indices.map CString.bytes).drop start)[i - start]? = some text.bytes := by
    intro i least text found
    rw [List.getElem?_drop, Nat.add_sub_cancel' least, List.getElem?_map, found]
    rfl
  cases found : ((indices.map CString.bytes).drop start).findIdx? (fun name => name = key.bytes) with
  | none =>
      refine Or.inr ⟨rfl, fun i least same => ?_⟩
      have there := name i least same
      have differs := List.findIdx?_eq_none_iff.mp found key.bytes (List.mem_of_getElem? there)
      exact absurd rfl (of_decide_eq_false differs)
  | some d =>
      obtain ⟨inside, here, before⟩ := List.findIdx?_eq_some_iff_getElem.mp found
      refine Or.inl ⟨d, rfl, ?_, ?_⟩
      · have there := List.getElem?_eq_getElem inside
        rw [List.getElem?_drop, List.getElem?_map] at there
        obtain ⟨text, stands, same⟩ := Option.map_eq_some_iff.mp there
        rw [stands, CString.ext_bytes (same.trans (of_decide_eq_true here))]
      · intro i least less same
        have there := name i least same
        obtain ⟨bound, value⟩ := List.getElem?_eq_some_iff.mp there
        have differs := before (i - start) (by omega)
        rw [value] at differs
        exact differs (decide_eq_true rfl)

/-- The search for an index starts behind the configured index that is selected. -/
inductive Matchers.StartsAt (state : Matchers) : Nat → Prop
  | none (index : state.indexNum = none) : state.StartsAt 0
  | name (index : state.indexNum = some nameIndex) : state.StartsAt 0
  | label {label : Nat} (index : state.indexNum = some (label + numSpecialIndices)) : state.StartsAt (label + 1)

/-- The label `__name__` selects the tree of the names, if nothing is selected. -/
theorem select_name {names : List (List UInt8)} {state : Matchers} (index : state.indexNum = none) :
    state.select names nameKey.bytes = { state with indexNum := some nameIndex } := by
  rw [Matchers.select, if_pos ⟨index, rfl⟩]

/-- Any other label selects the next index for it, or nothing. -/
theorem select_cases {indices : List CString} {state : Matchers} {start : Nat} (starts : state.StartsAt start)
    {key : CString} (other : state.indexNum = none → key ≠ nameKey) :
    (∃ label, start ≤ label ∧ indices[label]? = some key ∧
      (∀ i, start ≤ i → i < label → indices[i]? ≠ some key) ∧
      state.select (indices.map CString.bytes) key.bytes =
        { state with indexNum := some (label + numSpecialIndices), indexVal := none }) ∨
    ((∀ i, start ≤ i → indices[i]? ≠ some key) ∧ state.select (indices.map CString.bytes) key.bytes = state) := by
  have unnamed : ¬ (state.indexNum = none ∧ key.bytes = nameLabel) := fun ⟨index, same⟩ =>
    other index (CString.ext_bytes same)
  have search : state.select (indices.map CString.bytes) key.bytes =
      (((indices.map CString.bytes).drop start).findIdx? fun name => name = key.bytes).elim state fun j =>
        { state with indexNum := some (start + j + numSpecialIndices), indexVal := none } := by
    rw [Matchers.select, if_neg unnamed]
    cases starts with
    | none index =>
        rw [index]
        dsimp only
        cases ((indices.map CString.bytes).drop 0).findIdx? fun name => name = key.bytes <;> rfl
    | name index =>
        rw [index]
        dsimp only
        rw [if_neg (by decide)]
        cases ((indices.map CString.bytes).drop 0).findIdx? fun name => name = key.bytes <;> rfl
    | @label label index =>
        rw [index]
        dsimp only
        rw [if_pos (Nat.le_add_left _ _), Nat.add_sub_cancel]
        cases ((indices.map CString.bytes).drop (label + 1)).findIdx? fun name => name = key.bytes <;> rfl
  rcases findName indices start key with ⟨d, found, here, before⟩ | ⟨none, nowhere⟩
  · refine Or.inl ⟨start + d, Nat.le_add_right _ _, here, before, ?_⟩
    rw [search, found, Option.elim_some]
  · refine Or.inr ⟨nowhere, ?_⟩
    rw [search, none, Option.elim_none]

/-- The place of the value of a matcher that was read. -/
def LatchedAt (read : List KeyValue) (place : Option Nat) (matcher : KeyValue) : Prop :=
  ∃ front back, read = front ++ matcher :: back ∧
    place = some ((stringBytes (labelStrings front)).length + (matcher.key.bytes.length + 1))

/-- The value at the place of a matcher is its own. -/
theorem LatchedAt.value {read : List KeyValue} {place : Option Nat} {matcher : KeyValue}
    (latched : LatchedAt read place matcher) :
    CString.at ((stringBytes (labelStrings read)).drop (place.getD 0)) = matcher.value := by
  obtain ⟨front, back, rfl, rfl⟩ := latched
  rw [Option.getD_some, labelStrings_append, stringBytes_append, ← List.drop_drop, List.drop_left, labelStrings_cons,
    drop_stringBytes, at_stringBytes]

theorem LatchedAt.concat {read : List KeyValue} {place : Option Nat} {matcher : KeyValue}
    (latched : LatchedAt read place matcher) (next : KeyValue) : LatchedAt (read ++ [next]) place matcher := by
  obtain ⟨front, back, rfl, same⟩ := latched
  exact ⟨front, back ++ [next], by rw [List.append_assoc]; rfl, same⟩

/-- The tree that the matchers read so far select, and the matcher whose value is looked up in it. -/
inductive Selection (indices : List CString) (read : List KeyValue) (state : Matchers) : Prop
  | nothing (index : state.indexNum = none) (others : ∀ other ∈ read, other.key ≠ nameKey ∧ other.key ∉ indices)
      (start : read = [] → state.indexVal = none)
      (latched : ∀ first ∈ read.head?, LatchedAt read state.indexVal first)
  | name (index : state.indexNum = some nameIndex) (named : ∃ matcher ∈ read, matcher.key = nameKey)
      (others : ∀ other ∈ read, other.key ≠ nameKey → other.key ∉ indices)
      (latched : ∀ first ∈ read.head?, LatchedAt read state.indexVal first)
  | label {label : Nat} {matcher : KeyValue} (index : state.indexNum = some (label + numSpecialIndices))
      (here : indices[label]? = some matcher.key) (latched : LatchedAt read state.indexVal matcher)
      (others : ∀ other ∈ read, other.key ∈ indices → other.key ≠ nameKey → other.key ≠ matcher.key →
        ∃ i < label, indices[i]? = some other.key)
      (named : matcher.key = nameKey → ∃ other ∈ read, other.key ≠ nameKey ∧ other.key ∈ indices)

section
variable {indices : List CString} {read : List KeyValue} {state : Matchers} {matcher : KeyValue}

/-- The value of the next matcher is looked up if no value is latched. -/
theorem added_latched (bytes : state.labelMatches = stringBytes (labelStrings read))
    (forgotten : (state.select (indices.map CString.bytes) matcher.key.bytes).indexVal = none) :
    LatchedAt (read ++ [matcher])
      (state.added (indices.map CString.bytes) (matcher.key.bytes, matcher.value.bytes)).indexVal matcher := by
  refine ⟨read, [], rfl, ?_⟩
  rw [Matchers.added, Matchers.latch]
  dsimp only
  rw [forgotten, Option.getD_none, bytes, List.length_append, List.length_append, List.length_singleton]

/-- A value that is latched stays. -/
theorem added_keeps {first : KeyValue} (latched : LatchedAt read state.indexVal first)
    (kept : (state.select (indices.map CString.bytes) matcher.key.bytes).indexVal = state.indexVal) :
    LatchedAt (read ++ [matcher])
      (state.added (indices.map CString.bytes) (matcher.key.bytes, matcher.value.bytes)).indexVal first := by
  have same : (state.added (indices.map CString.bytes) (matcher.key.bytes, matcher.value.bytes)).indexVal =
      state.indexVal := by
    rw [Matchers.added, Matchers.latch]
    dsimp only
    rw [kept]
    obtain ⟨front, back, _, place⟩ := latched
    rw [place, Option.getD_some]
  rw [same]
  exact latched.concat matcher

theorem added_head (bytes : state.labelMatches = stringBytes (labelStrings read))
    (start : read = [] → state.indexVal = none) (latched : ∀ first ∈ read.head?, LatchedAt read state.indexVal first)
    (kept : (state.select (indices.map CString.bytes) matcher.key.bytes).indexVal = state.indexVal) :
    ∀ first ∈ (read ++ [matcher]).head?, LatchedAt (read ++ [matcher])
      (state.added (indices.map CString.bytes) (matcher.key.bytes, matcher.value.bytes)).indexVal first := by
  intro first mem
  cases read with
  | nil =>
      cases mem
      exact added_latched bytes (kept.trans (start rfl))
  | cons head rest => exact added_keeps (latched first mem) kept

/-- The next matcher keeps the selection, or it is selected. -/
theorem Selection.concat (selection : Selection indices read state)
    (bytes : state.labelMatches = stringBytes (labelStrings read)) (fresh : ∀ other ∈ read, other.key ≠ matcher.key) :
    Selection indices (read ++ [matcher])
      (state.added (indices.map CString.bytes) (matcher.key.bytes, matcher.value.bytes)) := by
  have all : ∀ {good : KeyValue → Prop}, (∀ other ∈ read, good other) → good matcher →
      ∀ other ∈ read ++ [matcher], good other := fun before here other mem =>
    (List.mem_append.mp mem).elim (before other) fun single => List.mem_singleton.mp single ▸ here
  have nowhere : ∀ {start}, start = 0 → (∀ i, start ≤ i → indices[i]? ≠ some matcher.key) → matcher.key ∉ indices :=
    fun zero none mem => by
      obtain ⟨i, found⟩ := List.mem_iff_getElem?.mp mem
      exact none i (zero ▸ Nat.zero_le i) found
  cases selection with
  | nothing index others start latched =>
      by_cases named : matcher.key = nameKey
      · have selected := @select_name (indices.map CString.bytes) state index
        rw [← named] at selected
        refine .name ?_ ⟨matcher, List.mem_append_right _ List.mem_cons_self, named⟩
          (all (fun other mem _ => (others other mem).2) fun differs => absurd named differs)
          (added_head bytes start latched (by rw [selected]))
        change (state.select (indices.map CString.bytes) matcher.key.bytes).indexNum = _
        rw [selected]
      · rcases select_cases (.none index) fun _ => named with ⟨label, _, here, _, selected⟩ | ⟨none, selected⟩
        · refine .label (congrArg Matchers.indexNum selected) here (added_latched bytes (by rw [selected])) ?_
            fun same => absurd same named
          exact all (fun other mem configured => absurd configured (others other mem).2) fun _ _ differs =>
            absurd rfl differs
        · refine .nothing ((congrArg Matchers.indexNum selected).trans index)
            (all others ⟨named, nowhere rfl none⟩) (fun empty => ?_) (added_head bytes start latched (by rw [selected]))
          exact absurd empty (List.append_ne_nil_of_right_ne_nil _ (List.cons_ne_nil _ _))
  | name index named others latched =>
      obtain ⟨name, inside, called⟩ := named
      have differs : matcher.key ≠ nameKey := fun same => fresh name inside (called.trans same.symm)
      have some : read = [] → state.indexVal = none := fun empty => by
        rw [empty] at inside
        cases inside
      rcases select_cases (.name index) fun _ => differs with ⟨label, _, here, _, selected⟩ | ⟨none, selected⟩
      · refine .label (congrArg Matchers.indexNum selected) here (added_latched bytes (by rw [selected])) ?_
          fun same => absurd same differs
        exact all (fun other mem configured unnamed => absurd configured (others other mem unnamed)) fun _ _ differs =>
          absurd rfl differs
      · exact .name ((congrArg Matchers.indexNum selected).trans index) ⟨name, List.mem_append_left _ inside, called⟩
          (all others fun _ => nowhere rfl none) (added_head bytes some latched (by rw [selected]))
  | @label label selectedBefore index here latched others named =>
      have taken : ∃ front back, read = front ++ selectedBefore :: back := by
        obtain ⟨front, back, split, _⟩ := latched
        exact ⟨front, back, split⟩
      have inside : selectedBefore ∈ read := by
        obtain ⟨front, back, rfl⟩ := taken
        exact List.mem_append_right _ List.mem_cons_self
      have unset : state.indexNum = none → matcher.key ≠ nameKey := fun none => by
        rw [index] at none
        cases none
      rcases select_cases (.label index) unset with ⟨next, least, found, _, selected⟩ | ⟨none, selected⟩
      · refine .label (congrArg Matchers.indexNum selected) found (added_latched bytes (by rw [selected])) ?_ ?_
        · refine all (fun other mem configured unnamed _ => ?_) fun _ _ differs => absurd rfl differs
          by_cases same : other.key = selectedBefore.key
          · exact ⟨label, by omega, same ▸ here⟩
          · obtain ⟨i, less, place⟩ := others other mem configured unnamed same
            exact ⟨i, by omega, place⟩
        · intro same
          refine ⟨selectedBefore, List.mem_append_left _ inside, ?_, List.mem_of_getElem? here⟩
          exact fun called => fresh selectedBefore inside (called.trans same.symm)
      · refine .label ((congrArg Matchers.indexNum selected).trans index) here
          (added_keeps latched (by rw [selected])) ?_ fun same => ?_
        · refine all others fun configured _ differs => ?_
          obtain ⟨i, place⟩ := List.mem_iff_getElem?.mp configured
          refine ⟨i, ?_, place⟩
          by_contra outside
          rcases Nat.lt_or_ge label i with behind | before
          · exact none i behind place
          · obtain rfl : i = label := by omega
            exact differs (Option.some_inj.mp (place.symm.trans here))
        · obtain ⟨other, mem, rest⟩ := named same
          exact ⟨other, List.mem_append_left _ mem, rest⟩

/-- All matchers of a query make a selection. -/
theorem selection_read (indices : List CString) {matchers : List KeyValue}
    (distinct : (matchers.map KeyValue.key).Nodup) : Selection indices matchers (matchersRead indices matchers) := by
  induction matchers using List.reverseRecOn with
  | nil => exact .nothing rfl nofun (fun _ => rfl) nofun
  | append_singleton front matcher ih =>
      rw [List.map_append, List.nodup_append] at distinct
      rw [matchersRead_concat]
      exact (ih distinct.1).concat (matchersRead_labelMatches indices front) fun other mem =>
        distinct.2.2 other.key (List.mem_map_of_mem mem) matcher.key List.mem_cons_self

end

/-- One label name stands somewhere in front of another one. -/
def InFront (indices : List CString) (first second : CString) : Prop :=
  ∃ i j : Nat, i < j ∧ indices[i]? = some first ∧ indices[j]? = some second

/-- The label of a matcher is configured, and every other configured label of the query stands somewhere in front of
it. -/
def Decides (indices : List CString) (matchers : List KeyValue) (matcher : KeyValue) : Prop :=
  matcher ∈ matchers ∧ matcher.key ∈ indices ∧
    ∀ other ∈ matchers, other.key ∈ indices → other.key ≠ nameKey → other.key ≠ matcher.key →
      InFront indices other.key matcher.key

/-- The order of the matchers that are read before the one that decides: the name, and then the labels in the order of
the configuration. -/
def configRank (indices : List CString) (matcher : KeyValue) : Nat :=
  if matcher.key = nameKey then 0 else indices.idxOf matcher.key + 1

/-- The first place of a configured label that is not the name is selected. -/
def SelectsFirst (indices : List CString) (read : List KeyValue) (state : Matchers) : Prop :=
  state.StartsAt 0 ∨
    ∃ matcher ∈ read, matcher.key ≠ nameKey ∧ matcher.key ∈ indices ∧
      state.indexNum = some (indices.idxOf matcher.key + numSpecialIndices)

theorem first_le {indices : List CString} {key : CString} {i : Nat} (found : indices[i]? = some key) :
    indices.idxOf key ≤ i := by
  by_contra outside
  obtain ⟨bound, value⟩ := List.getElem?_eq_some_iff.mp found
  have differs := List.not_of_lt_findIdx (Nat.not_le.mp outside)
  rw [value, beq_self_eq_true] at differs
  cases differs

theorem first_place {indices : List CString} {key : CString} (configured : key ∈ indices) :
    indices[indices.idxOf key]? = some key := List.getElem?_idxOf configured

section
variable {indices : List CString} {read : List KeyValue} {state : Matchers} {matcher : KeyValue}

/-- The labels are selected one after the other in the order of the configuration. -/
theorem SelectsFirst.concat (first : SelectsFirst indices read state)
    (sorted : ∀ other ∈ read, configRank indices other ≤ configRank indices matcher)
    (fresh : ∀ other ∈ read, other.key ≠ matcher.key) (named : matcher.key = nameKey → state.indexNum = none) :
    SelectsFirst indices (read ++ [matcher])
      (state.added (indices.map CString.bytes) (matcher.key.bytes, matcher.value.bytes)) := by
  have keeps : state.select (indices.map CString.bytes) matcher.key.bytes = state →
      SelectsFirst indices (read ++ [matcher])
        (state.added (indices.map CString.bytes) (matcher.key.bytes, matcher.value.bytes)) := by
    intro same
    have index : (state.added (indices.map CString.bytes) (matcher.key.bytes, matcher.value.bytes)).indexNum =
        state.indexNum := by
      change (state.select (indices.map CString.bytes) matcher.key.bytes).indexNum = _
      rw [same]
    refine first.imp (fun starts => ?_) fun ⟨other, mem, unnamed, configured, selected⟩ =>
      ⟨other, List.mem_append_left _ mem, unnamed, configured, index.trans selected⟩
    cases starts with
    | none none => exact .none (index.trans none)
    | name name => exact .name (index.trans name)
  by_cases unnamed : matcher.key = nameKey
  · have selected := @select_name (indices.map CString.bytes) state (named unnamed)
    rw [← unnamed] at selected
    exact Or.inl (.name (congrArg Matchers.indexNum selected))
  · have search : ∀ {start}, state.StartsAt start → (matcher.key ∈ indices → start ≤ indices.idxOf matcher.key) →
        SelectsFirst indices (read ++ [matcher])
          (state.added (indices.map CString.bytes) (matcher.key.bytes, matcher.value.bytes)) := by
      intro start starts least
      rcases select_cases starts fun _ => unnamed with ⟨label, _, here, before, selected⟩ | ⟨_, same⟩
      · have configured : matcher.key ∈ indices := List.mem_of_getElem? here
        have place : label = indices.idxOf matcher.key :=
          le_antisymm (Nat.not_lt.mp fun less => before _ (least configured) less (first_place configured))
            (first_le here)
        refine Or.inr ⟨matcher, List.mem_append_right _ List.mem_cons_self, unnamed, configured, ?_⟩
        rw [← place]
        exact congrArg Matchers.indexNum selected
      · exact keeps same
    rcases first with starts | ⟨other, mem, otherUnnamed, otherConfigured, selected⟩
    · exact search starts fun _ => Nat.zero_le _
    · refine search (.label selected) fun configured => ?_
      have le := sorted other mem
      rw [configRank, configRank, if_neg otherUnnamed, if_neg unnamed] at le
      have differs : indices.idxOf other.key ≠ indices.idxOf matcher.key := fun same =>
        fresh other mem ((List.idxOf_inj otherConfigured).mp same)
      omega

/-- Matchers in the order of the configuration select the first place of a label. -/
theorem selectsFirst_read {matchers : List KeyValue} (distinct : (matchers.map KeyValue.key).Nodup)
    (sorted : matchers.Pairwise fun first second => configRank indices first ≤ configRank indices second) :
    SelectsFirst indices matchers (matchersRead indices matchers) := by
  induction matchers using List.reverseRecOn with
  | nil => exact Or.inl (.none rfl)
  | append_singleton front matcher ih =>
      rw [List.map_append, List.nodup_append] at distinct
      rw [List.pairwise_append] at sorted
      have fresh : ∀ other ∈ front, other.key ≠ matcher.key := fun other mem =>
        distinct.2.2 other.key (List.mem_map_of_mem mem) matcher.key List.mem_cons_self
      have below : ∀ other ∈ front, configRank indices other ≤ configRank indices matcher := fun other mem =>
        sorted.2.2 other mem matcher List.mem_cons_self
      rw [matchersRead_concat]
      refine (ih distinct.1 sorted.1).concat below fresh fun named => ?_
      -- The name has the lowest rank, and every other matcher has a higher one.
      have none : front = [] := by
        cases front with
        | nil => rfl
        | cons other rest =>
            have le := below other List.mem_cons_self
            have unnamed : other.key ≠ nameKey := fun same => fresh other List.mem_cons_self (same.trans named.symm)
            rw [configRank, configRank, if_neg unnamed, if_pos named] at le
            omega
      rw [none]
      rfl

/-- A matcher that decides is selected in some order. -/
theorem Decides.order {matchers : List KeyValue} (decides : Decides indices matchers matcher)
    (distinct : (matchers.map KeyValue.key).Nodup)
    (named : matcher.key = nameKey → ∃ other ∈ matchers, other.key ≠ nameKey ∧ other.key ∈ indices) :
    ∃ order, order.Perm matchers ∧ ∃ label,
      (matchersRead indices order).indexNum = some (label + numSpecialIndices) ∧ indices[label]? = some matcher.key := by
  obtain ⟨mem, configured, others⟩ := decides
  obtain ⟨front, ordered, sorted⟩ : ∃ front : List KeyValue, front.Perm (matchers.erase matcher) ∧
      front.Pairwise fun first second => configRank indices first ≤ configRank indices second := by
    refine ⟨_, List.mergeSort_perm (matchers.erase matcher) fun first second =>
      decide (configRank indices first ≤ configRank indices second), ?_⟩
    refine (List.pairwise_mergeSort (fun first second third => ?_) (fun first second => ?_) _).imp of_decide_eq_true
    · simp only [decide_eq_true_eq]
      exact le_trans
    · simp only [Bool.or_eq_true, decide_eq_true_eq]
      exact Nat.le_total _ _
  have perm : (front ++ [matcher]).Perm matchers :=
    (List.perm_append_singleton matcher front).trans ((ordered.cons matcher).trans (List.perm_cons_erase mem).symm)
  have distinct : ((front ++ [matcher]).map KeyValue.key).Nodup := (perm.map KeyValue.key).nodup_iff.mpr distinct
  rw [List.map_append, List.nodup_append] at distinct
  have fresh : ∀ other ∈ front, other.key ≠ matcher.key := fun other mem =>
    distinct.2.2 other.key (List.mem_map_of_mem mem) matcher.key List.mem_cons_self
  have selection := selection_read indices distinct.1
  refine ⟨front ++ [matcher], perm, ?_⟩
  rw [matchersRead_concat]
  have search : ∀ {start}, (matchersRead indices front).StartsAt start →
      ((matchersRead indices front).indexNum = none → matcher.key ≠ nameKey) →
      (∃ i, start ≤ i ∧ indices[i]? = some matcher.key) →
      ∃ label, ((matchersRead indices front).added (indices.map CString.bytes)
        (matcher.key.bytes, matcher.value.bytes)).indexNum = some (label + numSpecialIndices) ∧
        indices[label]? = some matcher.key := by
    rintro start starts other ⟨i, least, found⟩
    rcases select_cases starts other with ⟨label, _, here, _, selected⟩ | ⟨none, _⟩
    · exact ⟨label, congrArg Matchers.indexNum selected, here⟩
    · exact absurd found (none i least)
  rcases selectsFirst_read distinct.1 sorted with starts | ⟨other, inside, unnamed, taken, selected⟩
  · refine search starts ?_ ?_
    · intro none same
      obtain ⟨other, given, unnamed, taken⟩ := named same
      have inside : other ∈ front := by
        rcases List.mem_append.mp (perm.mem_iff.mpr given) with there | here
        · exact there
        · rw [List.mem_singleton.mp here] at unnamed
          exact absurd same unnamed
      cases selection with
      | nothing _ free => exact (free other inside).2 taken
      | name index => rw [index] at none; cases none
      | label index => rw [index] at none; cases none
    · obtain ⟨i, found⟩ := List.mem_iff_getElem?.mp configured
      exact ⟨i, Nat.zero_le i, found⟩
  · obtain ⟨i, j, less, place, found⟩ := others other (perm.mem_iff.mp (List.mem_append_left _ inside)) taken unnamed
      (fresh other inside)
    have least := first_le place
    refine search (.label selected) (fun none => ?_) ⟨j, by omega, found⟩
    rw [selected] at none
    cases none

end

end Menoetius
