import Menoetius.LfmRoundTrip

/-
This file shows what the server reads from the binary form of a label set.
-/

namespace Menoetius

/-- The loop of `get_key_value`, where `left` bytes remain before `end`. -/
def getKeyValueLoop (debugBuild : Bool) (key : CString) :
    Nat → Nat → Nat → Bool → List UInt8 → Except Failure (Option CString)
  | 0, _, _, found, _ => if debugBuild && found then throw (.abort .getKeyValueFound) else pure none
  | fuel + 1, index, left, found, lfm =>
      if left = 0 then
        if debugBuild && found then throw (.abort .getKeyValueFound) else pure none
      else if found then pure (some (CString.at lfm))
      else
        let text := CString.at lfm
        getKeyValueLoop debugBuild key fuel (index + 1) (left - (text.bytes.length + 1))
          (index % 2 == 1 && strcmp text key == .eq) (lfm.drop (text.bytes.length + 1))

/-- `get_key_value` looks for a label in a key and the NUL byte behind it. -/
def getKeyValue (debugBuild : Bool) (lfm : List UInt8) (lfmLen : Nat) (key : CString) :
    Except Failure (Option CString) :=
  getKeyValueLoop debugBuild key lfmLen 0 lfmLen false lfm

/-- The bytes of strings that a NUL byte ends each. -/
def stringBytes (strings : List CString) : List UInt8 := Fields.closed 0 (strings.map CString.bytes)

theorem stringBytes_cons (text : CString) (rest : List CString) :
    stringBytes (text :: rest) = text.bytes ++ 0 :: stringBytes rest := Fields.closed_cons _ _

/-- `strlen` stops at the end of the first string. -/
theorem at_append (text : CString) (rest : List UInt8) : CString.at (text.bytes ++ 0 :: rest) = text := by
  have whole : ∀ byte ∈ text.bytes, (byte != 0) = true := by
    intro byte mem
    have other : byte ≠ 0 := fun equal => text.nulFree (equal ▸ mem)
    simpa using other
  apply CString.ext_bytes
  change (text.bytes ++ 0 :: rest).takeWhile (fun byte => byte != 0) = text.bytes
  rw [List.takeWhile_append_of_pos whole]
  simp

theorem at_stringBytes (text : CString) (rest : List CString) : CString.at (stringBytes (text :: rest)) = text := by
  rw [stringBytes_cons, at_append]

theorem drop_stringBytes (text : CString) (rest : List CString) :
    (stringBytes (text :: rest)).drop (text.bytes.length + 1) = stringBytes rest := by
  rw [stringBytes_cons, List.drop_append]
  simp

theorem stringBytes_length (text : CString) (rest : List CString) :
    (stringBytes (text :: rest)).length = text.bytes.length + 1 + (stringBytes rest).length := by
  rw [stringBytes_cons, List.length_append, List.length_cons]
  omega

/-- The stored key is the binary form with the NUL byte that `storage_item_new` puts behind it. -/
theorem encoded_append (lfm : LFM) : lfm.encoded ++ [0] = stringBytes lfm.strings :=
  Fields.intercalate_append (by simp [LFM.fields, LFM.strings])

/-- The strings of labels. -/
def labelStrings (labels : List KeyValue) : List CString := labels.flatMap fun label => [label.key, label.value]

theorem labelStrings_cons (label : KeyValue) (labels : List KeyValue) :
    labelStrings (label :: labels) = label.key :: label.value :: labelStrings labels := rfl

/-- The value of the label with a key. -/
def LFM.labelValue (lfm : LFM) (key : CString) : Option CString :=
  (lfm.labels.find? fun label => label.key = key).map KeyValue.value

theorem strcmp_eq_iff {first second : CString} : (strcmp first second == .eq) = decide (first = second) := by
  have same : strcmp first second = .eq ↔ first = second :=
    ⟨fun equal => CString.ext_bytes (Std.LawfulEqCmp.eq_of_compare equal), fun equal => by
      rw [equal, strcmp]
      exact Std.ReflCmp.compare_self⟩
  rw [Bool.eq_iff_iff, beq_iff_eq, decide_eq_true_eq, same]

/-- What the loop returns at its end. -/
def loopEnd (debugBuild found : Bool) : Except Failure (Option CString) :=
  if debugBuild && found then .error (.abort .getKeyValueFound) else .ok none

theorem getKeyValueLoop_end (debugBuild : Bool) (key : CString) (fuel index : Nat) (found : Bool) (lfm : List UInt8) :
    getKeyValueLoop debugBuild key fuel index 0 found lfm = loopEnd debugBuild found := by
  cases fuel <;> rfl

theorem getKeyValueLoop_found (debugBuild : Bool) (key : CString) {fuel index left : Nat} (lfm : List UInt8)
    (more : 0 < left) (enough : left ≤ fuel) :
    getKeyValueLoop debugBuild key fuel index left true lfm = .ok (some (CString.at lfm)) := by
  obtain ⟨fuel, rfl⟩ : ∃ rest, fuel = rest + 1 := ⟨fuel - 1, by omega⟩
  rw [getKeyValueLoop, if_neg (by omega), if_pos rfl]
  rfl

theorem getKeyValueLoop_string (debugBuild : Bool) (key text : CString) (rest : List CString) {fuel index left : Nat}
    (more : 0 < left) (enough : left ≤ fuel) :
    getKeyValueLoop debugBuild key fuel index left false (stringBytes (text :: rest)) =
      getKeyValueLoop debugBuild key (fuel - 1) (index + 1) (left - (text.bytes.length + 1))
        (index % 2 == 1 && decide (text = key)) (stringBytes rest) := by
  obtain ⟨fuel, rfl⟩ : ∃ rest, fuel = rest + 1 := ⟨fuel - 1, by omega⟩
  rw [getKeyValueLoop, if_neg (by omega), if_neg (by simp)]
  simp only [at_stringBytes, drop_stringBytes, strcmp_eq_iff, Nat.add_sub_cancel]

/-- What the loop makes of the labels. -/
def readLabel (debugBuild : Bool) (key : CString) : List KeyValue → Except Failure (Option CString)
  | [] => .ok none
  | label :: rest =>
      if label.key = key then
        if label.value.bytes = [] ∧ rest = [] then loopEnd debugBuild true else .ok (some label.value)
      else readLabel debugBuild key rest

theorem stringBytes_labels_eq_zero {labels : List KeyValue} (empty : (stringBytes (labelStrings labels)).length = 0) :
    labels = [] := by
  cases labels with
  | nil => rfl
  | cons label labels =>
      rw [labelStrings_cons, stringBytes_length] at empty
      omega

/-- Behind the name, the loop meets one label after the other. -/
theorem getKeyValueLoop_labels (debugBuild : Bool) (key : CString) (labels : List KeyValue) {fuel index left : Nat}
    (odd : index % 2 = 1) (length : left = (stringBytes (labelStrings labels)).length - 1) (enough : left ≤ fuel) :
    getKeyValueLoop debugBuild key fuel index left false (stringBytes (labelStrings labels)) =
      readLabel debugBuild key labels := by
  induction labels generalizing fuel index left with
  | nil =>
      obtain rfl : left = 0 := length
      rw [getKeyValueLoop_end]
      simp [loopEnd, readLabel]
  | cons label labels ih =>
      rw [labelStrings_cons, stringBytes_length, stringBytes_length] at length
      rw [labelStrings_cons, getKeyValueLoop_string debugBuild key label.key _ (by omega) enough, readLabel]
      have behind : left - (label.key.bytes.length + 1) =
          label.value.bytes.length + (stringBytes (labelStrings labels)).length := by omega
      rw [behind]
      by_cases named : label.key = key
      · rw [if_pos named]
        simp only [odd, named, beq_self_eq_true, decide_true, Bool.and_true]
        by_cases hollow : label.value.bytes = [] ∧ labels = []
        · rw [if_pos hollow, hollow.1, hollow.2]
          exact getKeyValueLoop_end debugBuild key _ _ true _
        · have more : 0 < label.value.bytes.length + (stringBytes (labelStrings labels)).length := by
            by_contra none
            exact hollow ⟨List.eq_nil_of_length_eq_zero (by omega), stringBytes_labels_eq_zero (by omega)⟩
          rw [if_neg hollow, getKeyValueLoop_found debugBuild key _ more (by omega), at_stringBytes]
      · rw [if_neg named]
        simp only [named, decide_false, Bool.and_false]
        by_cases none : label.value.bytes.length + (stringBytes (labelStrings labels)).length = 0
        · obtain rfl : labels = [] := stringBytes_labels_eq_zero (by omega)
          rw [none, getKeyValueLoop_end]
          simp [loopEnd, readLabel]
        · rw [getKeyValueLoop_string debugBuild key label.value _ (by omega) (by omega)]
          have even : ((index + 1) % 2 == 1 && decide (label.value = key)) = false := by
            have parity : (index + 1) % 2 = 0 := by omega
            rw [parity]
            rfl
          rw [even]
          exact ih (by omega) (by omega) (by omega)

/-- The function reads the labels of a stored key. -/
theorem getKeyValue_eq (debugBuild : Bool) (key : CString) (lfm : LFM) :
    getKeyValue debugBuild (lfm.encoded ++ [0]) lfm.encoded.length key = readLabel debugBuild key lfm.labels := by
  have length := congrArg List.length (encoded_append lfm)
  rw [List.length_append, List.length_singleton, LFM.strings, stringBytes_length] at length
  have left : lfm.encoded.length =
      (CString.at (nameBytes lfm.name)).bytes.length + (stringBytes (labelStrings lfm.labels)).length := by
    rw [labelStrings]
    omega
  rw [getKeyValue, encoded_append, left]
  by_cases none : (CString.at (nameBytes lfm.name)).bytes.length + (stringBytes (labelStrings lfm.labels)).length = 0
  · have empty : lfm.labels = [] := stringBytes_labels_eq_zero (by omega)
    rw [none, getKeyValueLoop_end, empty]
    simp [loopEnd, readLabel]
  · rw [LFM.strings, getKeyValueLoop_string debugBuild key _ _ (by omega) le_rfl]
    exact getKeyValueLoop_labels debugBuild key lfm.labels rfl (by omega) (by omega)

/-- The last label has the key and an empty value. -/
def HollowLast (labels : List KeyValue) (key : CString) : Prop :=
  ∃ label ∈ labels.getLast?, label.key = key ∧ label.value.bytes = []

theorem readLabel_iff (debugBuild : Bool) (key : CString) {labels : List KeyValue}
    (distinct : labels.Pairwise fun first second => first.key ≠ second.key) :
    readLabel debugBuild key labels = .ok ((labels.find? fun label => label.key = key).map KeyValue.value) ↔
      ¬ HollowLast labels key := by
  induction labels with
  | nil => simp [readLabel, HollowLast]
  | cons label labels ih =>
      obtain ⟨others, distinct⟩ := List.pairwise_cons.mp distinct
      rw [readLabel]
      by_cases named : label.key = key
      · rw [if_pos named, List.find?_cons_of_pos (by simpa using named)]
        by_cases hollow : label.value.bytes = [] ∧ labels = []
        · rw [if_pos hollow]
          refine iff_of_false ?_ fun none => none ?_
          · cases debugBuild <;> simp [loopEnd]
          · exact ⟨label, by simp [hollow.2], named, hollow.1⟩
        · rw [if_neg hollow]
          refine iff_of_true rfl ?_
          rintro ⟨last, found, same, empty⟩
          rcases List.eq_nil_or_concat labels with rfl | ⟨front, back, rfl⟩
          · cases found
            exact hollow ⟨empty, rfl⟩
          · rw [List.concat_eq_append, ← List.cons_append, List.getLast?_concat] at found
            cases found
            exact others last (by simp) (named.trans same.symm)
      · rw [if_neg named, List.find?_cons_of_neg (by simpa using named), ih distinct]
        refine not_congr ⟨?_, ?_⟩
        · rintro ⟨last, found, rest⟩
          refine ⟨last, ?_, rest⟩
          cases labels with
          | nil => cases found
          | cons next labels => rwa [List.getLast?_cons_cons]
        · rintro ⟨last, found, rest⟩
          cases labels with
          | nil =>
              cases found
              exact absurd rest.1 named
          | cons next labels => exact ⟨last, by rwa [List.getLast?_cons_cons] at found, rest⟩

/-- The server finds the labels of a key if and only if the label is not the last one with an empty value. -/
theorem getKeyValue_agrees_iff (lfm : LFM) (distinct : lfm.labels.Pairwise fun first second => first.key ≠ second.key)
    (bytes : List UInt8) (encoded : encodeBinaryLfm lfm = .ok bytes) (debugBuild : Bool) (key : CString) :
    getKeyValue debugBuild (bytes ++ [0]) bytes.length key = .ok (lfm.labelValue key) ↔
      ¬ HollowLast lfm.labels key := by
  rw [encodeBinaryLfm_eq] at encoded
  split at encoded
  · cases encoded
    rw [getKeyValue_eq]
    exact readLabel_iff debugBuild key distinct
  · cases encoded

/-- The label `a` of `m{a="",b="1"}` is found although its value is empty. -/
theorem getKeyValue_agrees_hollowFirst :
    getKeyValue true ([109, 0, 97, 0, 0, 98, 0, 49] ++ [0]) 8 ⟨[97], by decide⟩ =
      .ok (some ⟨[], by decide⟩) :=
  (getKeyValue_agrees_iff hollowFirst (by simp only [hollowFirst]; decide) [109, 0, 97, 0, 0, 98, 0, 49] (by decide)
    true ⟨[97], by decide⟩).mpr (by rintro ⟨label, found, named, _⟩; cases found; exact absurd named (by decide))

/-- The label `a` of `m{a=""}` is there, but it is not found, and a debug build stops. -/
theorem getKeyValue_hollowLast :
    encodeBinaryLfm hollowLast = .ok [109, 0, 97, 0] ∧
      hollowLast.labelValue ⟨[97], by decide⟩ = some ⟨[], by decide⟩ ∧
      getKeyValue false ([109, 0, 97, 0] ++ [0]) 4 ⟨[97], by decide⟩ = .ok none ∧
      getKeyValue true ([109, 0, 97, 0] ++ [0]) 4 ⟨[97], by decide⟩ = .error (.abort .getKeyValueFound) := by
  decide

/-- The label name that stands for the metric name. -/
def nameKey : CString := ⟨[95, 95, 110, 97, 109, 101, 95, 95], by decide⟩

/-- `memmem` looks for the bytes of the second list in the first one. -/
def memmem (haystack needle : List UInt8) : Bool := decide (needle <:+: haystack)

/-- `extra_matchers_match` looks for each matcher in a stored key, where `count` matchers remain. -/
def extraMatchersMatch (key : List UInt8) (keyLen : UInt16) : Nat → List UInt8 → Bool
  | 0, _ => true
  | count + 1, matchers =>
      let matchKey := CString.at matchers
      let values := matchers.drop (matchKey.bytes.length + 1)
      let matchVal := CString.at values
      let rest := values.drop (matchVal.bytes.length + 1)
      if strcmp matchKey nameKey == .eq then
        if strcmp (CString.at key) matchVal == .eq then extraMatchersMatch key keyLen count rest else false
      else if memmem (key.take (keyLen.toNat + 1)) (matchers.take (matchers.length - rest.length)) then
        extraMatchersMatch key keyLen count rest
      else false

/-- A label set satisfies a matcher by its name or by one of its labels. -/
def LFM.Satisfies (lfm : LFM) (matcher : KeyValue) : Prop :=
  (matcher.key = nameKey ∧ nameBytes lfm.name = matcher.value.bytes) ∨ matcher ∈ lfm.labels

/-- A string of the label set ends like the matcher's key and its value comes next, but no label is the matcher. -/
def LFM.Strays (lfm : LFM) (matcher : KeyValue) : Prop :=
  matcher.key ≠ nameKey ∧ matcher ∉ lfm.labels ∧
    ∃ front text back, lfm.strings = front ++ text :: matcher.value :: back ∧ matcher.key.bytes <:+ text.bytes

/-- A label called `__name__` is the matcher, but the name is another one. -/
def LFM.Hides (lfm : LFM) (matcher : KeyValue) : Prop :=
  matcher.key = nameKey ∧ matcher ∈ lfm.labels ∧ nameBytes lfm.name ≠ matcher.value.bytes

/-- What one turn of the loop finds out about a matcher. -/
def LFM.Hits (lfm : LFM) (matcher : KeyValue) : Prop :=
  if matcher.key = nameKey then nameBytes lfm.name = matcher.value.bytes
  else ∃ front text back, lfm.strings = front ++ text :: matcher.value :: back ∧ matcher.key.bytes <:+ text.bytes

/-- The strings of a label stand next to each other. -/
theorem LFM.strings_of_mem {lfm : LFM} {label : KeyValue} (mem : label ∈ lfm.labels) :
    ∃ front back, lfm.strings = front ++ label.key :: label.value :: back := by
  obtain ⟨before, after, split⟩ := List.append_of_mem mem
  refine ⟨CString.at (nameBytes lfm.name) :: labelStrings before, labelStrings after, ?_⟩
  rw [LFM.strings, split, List.flatMap_append]
  rfl

/-- The loop finds what the label set satisfies and does not hide, and what strays. -/
theorem LFM.hits_iff (lfm : LFM) (matcher : KeyValue) :
    lfm.Hits matcher ↔ (lfm.Satisfies matcher ∧ ¬ lfm.Hides matcher) ∨ lfm.Strays matcher := by
  unfold LFM.Hits LFM.Satisfies LFM.Hides LFM.Strays
  by_cases named : matcher.key = nameKey
  · rw [if_pos named]
    by_cases same : nameBytes lfm.name = matcher.value.bytes
    · simp [named, same]
    · simp [named, same]
  · rw [if_neg named]
    by_cases mem : matcher ∈ lfm.labels
    · obtain ⟨front, back, strings⟩ := lfm.strings_of_mem mem
      refine iff_of_true ⟨front, matcher.key, back, strings, List.suffix_refl _⟩ (Or.inl ⟨Or.inr mem, ?_⟩)
      exact fun hides => named hides.1
    · simp [named, mem]

theorem memmem_iff (lfm : LFM) (matcher : KeyValue) :
    memmem (stringBytes lfm.strings) (stringBytes [matcher.key, matcher.value]) = true ↔
      ∃ front text back, lfm.strings = front ++ text :: matcher.value :: back ∧ matcher.key.bytes <:+ text.bytes := by
  rw [memmem, decide_eq_true_iff]
  refine (Fields.infix_closed_iff lfm.fields_free matcher.key.nulFree matcher.value.nulFree).trans ⟨?_, ?_⟩
  · rintro ⟨front, field, back, split, ends⟩
    obtain ⟨first, rest, strings, _, others⟩ := List.map_eq_append_iff.mp split
    obtain ⟨text, more, rfl, rfl, next⟩ := List.map_eq_cons_iff.mp others
    obtain ⟨value, later, rfl, same, _⟩ := List.map_eq_cons_iff.mp next
    obtain rfl := CString.ext_bytes same
    exact ⟨first, text, later, strings, ends⟩
  · rintro ⟨front, text, back, strings, ends⟩
    refine ⟨front.map CString.bytes, text.bytes, back.map CString.bytes, ?_, ends⟩
    rw [LFM.fields, strings, List.map_append, List.map_cons, List.map_cons]

theorem extraMatchersMatch_cons (key : List UInt8) (keyLen : UInt16) (matcher : KeyValue) (matchers : List KeyValue) :
    extraMatchersMatch key keyLen (matchers.length + 1) (stringBytes (labelStrings (matcher :: matchers))) =
      ((if matcher.key = nameKey then decide (CString.at key = matcher.value)
        else memmem (key.take (keyLen.toNat + 1)) (stringBytes [matcher.key, matcher.value])) &&
        extraMatchersMatch key keyLen matchers.length (stringBytes (labelStrings matchers))) := by
  have split : stringBytes (labelStrings (matcher :: matchers)) =
      stringBytes [matcher.key, matcher.value] ++ stringBytes (labelStrings matchers) := by
    rw [labelStrings_cons, stringBytes, stringBytes, stringBytes, ← Fields.closed_append, ← List.map_append]
    rfl
  have needle : (stringBytes (labelStrings (matcher :: matchers))).take
      ((stringBytes (labelStrings (matcher :: matchers))).length - (stringBytes (labelStrings matchers)).length) =
      stringBytes [matcher.key, matcher.value] := by
    rw [split, List.length_append, Nat.add_sub_cancel, List.take_left]
  rw [labelStrings_cons] at needle ⊢
  simp only [extraMatchersMatch, at_stringBytes, drop_stringBytes, needle, strcmp_eq_iff, decide_eq_true_eq]
  by_cases named : matcher.key = nameKey
  · rw [if_pos named, if_pos named]
    by_cases same : CString.at key = matcher.value
    · rw [if_pos same, decide_eq_true same, Bool.true_and]
    · rw [if_neg same, decide_eq_false same, Bool.false_and]
  · rw [if_neg named, if_neg named]
    cases memmem (key.take (keyLen.toNat + 1)) (stringBytes [matcher.key, matcher.value]) <;> rfl

/-- The loop looks at one matcher after the other. -/
theorem extraMatchersMatch_iff (lfm : LFM) {keyLen : UInt16} (length : keyLen.toNat = lfm.encoded.length)
    (matchers : List KeyValue) :
    extraMatchersMatch (lfm.encoded ++ [0]) keyLen matchers.length (stringBytes (labelStrings matchers)) = true ↔
      ∀ matcher ∈ matchers, lfm.Hits matcher := by
  have whole : (stringBytes lfm.strings).take (keyLen.toNat + 1) = stringBytes lfm.strings := by
    have stored := congrArg List.length (encoded_append lfm)
    rw [List.length_append, List.length_singleton] at stored
    rw [length, stored, List.take_length]
  have name : CString.at (stringBytes lfm.strings) = CString.at (nameBytes lfm.name) := at_stringBytes _ _
  rw [encoded_append]
  induction matchers with
  | nil => simp [extraMatchersMatch]
  | cons matcher matchers ih =>
      have same : CString.at (nameBytes lfm.name) = matcher.value ↔ nameBytes lfm.name = matcher.value.bytes := by
        constructor
        · intro equal
          rw [← equal, at_nameBytes]
        · intro equal
          rw [equal, CString.at_bytes]
      have turn : ((if matcher.key = nameKey then decide (CString.at (stringBytes lfm.strings) = matcher.value)
          else memmem ((stringBytes lfm.strings).take (keyLen.toNat + 1)) (stringBytes [matcher.key, matcher.value])) =
            true) ↔ lfm.Hits matcher := by
        rw [LFM.Hits, whole, name]
        split
        · rw [decide_eq_true_iff, same]
        · exact memmem_iff lfm matcher
      rw [List.length_cons, extraMatchersMatch_cons, Bool.and_eq_true, turn, List.forall_mem_cons]
      exact and_congr_right fun _ => ih

/-- Some matcher is refused, or the label set strays and hides, or it does neither. -/
def LFM.MatchesWell (lfm : LFM) (matchers : List KeyValue) : Prop :=
  (∃ matcher ∈ matchers, ¬ lfm.Satisfies matcher ∧ ¬ lfm.Strays matcher) ∨
    ((∃ matcher ∈ matchers, lfm.Strays matcher) ↔ ∃ matcher ∈ matchers, lfm.Hides matcher)

/-- The matchers are decided by the labels if and only if no stray hit and no hidden label decides them. -/
theorem extraMatchersMatch_agrees_iff (lfm : LFM) (bytes : List UInt8) (encoded : encodeBinaryLfm lfm = .ok bytes)
    (keyLen : UInt16) (length : keyLen.toNat = bytes.length) (matchers : List KeyValue) :
    (extraMatchersMatch (bytes ++ [0]) keyLen matchers.length (stringBytes (labelStrings matchers)) = true ↔
        ∀ matcher ∈ matchers, lfm.Satisfies matcher) ↔ lfm.MatchesWell matchers := by
  rw [encodeBinaryLfm_eq] at encoded
  split at encoded
  swap
  · cases encoded
  cases encoded
  rw [extraMatchersMatch_iff lfm length, LFM.MatchesWell]
  simp only [lfm.hits_iff]
  have strayed : ∀ matcher, lfm.Strays matcher → ¬ lfm.Satisfies matcher := fun matcher strays satisfies =>
    satisfies.elim (fun named => strays.1 named.1) strays.2.1
  have hidden : ∀ matcher, lfm.Hides matcher → lfm.Satisfies matcher := fun matcher hides => Or.inr hides.2.1
  by_cases refused : ∃ matcher ∈ matchers, ¬ lfm.Satisfies matcher ∧ ¬ lfm.Strays matcher
  · refine iff_of_true (iff_of_false ?_ ?_) (Or.inl refused)
    · obtain ⟨matcher, mem, unsatisfied, straight⟩ := refused
      exact fun all => (all matcher mem).elim (fun satisfied => unsatisfied satisfied.1) straight
    · obtain ⟨matcher, mem, unsatisfied, _⟩ := refused
      exact fun all => unsatisfied (all matcher mem)
  · have decided : ∀ matcher ∈ matchers, lfm.Satisfies matcher ∨ lfm.Strays matcher := by
      intro matcher mem
      by_contra neither
      exact refused ⟨matcher, mem, not_or.mp neither⟩
    -- Every matcher is satisfied or strays, so that only hiding can turn the loop away.
    have found : (∀ matcher ∈ matchers, (lfm.Satisfies matcher ∧ ¬ lfm.Hides matcher) ∨ lfm.Strays matcher) ↔
        ¬ ∃ matcher ∈ matchers, lfm.Hides matcher := by
      constructor
      · rintro all ⟨matcher, mem, hides⟩
        exact (all matcher mem).elim (fun clear => clear.2 hides) fun strays => strayed matcher strays (hidden matcher hides)
      · intro clear matcher mem
        exact (decided matcher mem).imp (fun satisfied => ⟨satisfied, fun hides => clear ⟨matcher, mem, hides⟩⟩) id
    have satisfied : (∀ matcher ∈ matchers, lfm.Satisfies matcher) ↔ ¬ ∃ matcher ∈ matchers, lfm.Strays matcher := by
      constructor
      · rintro all ⟨matcher, mem, strays⟩
        exact strayed matcher strays (all matcher mem)
      · intro straight matcher mem
        exact (decided matcher mem).resolve_right fun strays => straight ⟨matcher, mem, strays⟩
    rw [found, satisfied, not_iff_not, or_iff_right refused]
    exact Iff.comm

/-- The label set `m{ab="1"}`. -/
def longerKey : LFM := { name := some (CString.at [109]), labels := [⟨CString.at [97, 98], CString.at [49]⟩] }

/-- The matcher `b="1"` is met by the key of `m{ab="1"}`, which has no label `b`. -/
theorem extraMatchersMatch_longerKey :
    encodeBinaryLfm longerKey = .ok [109, 0, 97, 98, 0, 49] ∧
      extraMatchersMatch ([109, 0, 97, 98, 0, 49] ++ [0]) 6 1 [98, 0, 49, 0] = true ∧
      ¬ longerKey.Satisfies ⟨⟨[98], by decide⟩, ⟨[49], by decide⟩⟩ := by
  refine ⟨by decide, by decide, ?_⟩
  rintro (⟨named, _⟩ | mem)
  · exact absurd named (by decide)
  · exact absurd mem (by decide)

/-- The matcher `ab="1"` is met by `m{ab="1"}`. -/
theorem extraMatchersMatch_agrees_longerKey :
    extraMatchersMatch ([109, 0, 97, 98, 0, 49] ++ [0]) 6 1 [97, 98, 0, 49, 0] = true := by
  have mem : (⟨⟨[97, 98], by decide⟩, ⟨[49], by decide⟩⟩ : KeyValue) ∈ longerKey.labels := by decide
  refine ((extraMatchersMatch_agrees_iff longerKey [109, 0, 97, 98, 0, 49] (by decide) 6 (by decide)
    [⟨⟨[97, 98], by decide⟩, ⟨[49], by decide⟩⟩]).mpr (Or.inr ?_)).mpr ?_
  · refine iff_of_false ?_ ?_
    · rintro ⟨matcher, found, strays⟩
      cases List.mem_singleton.mp found
      exact strays.2.1 mem
    · rintro ⟨matcher, found, hides⟩
      cases List.mem_singleton.mp found
      exact absurd hides.1 (by decide)
  · intro matcher found
    cases List.mem_singleton.mp found
    exact Or.inr mem

end Menoetius
