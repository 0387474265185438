import Menoetius.Lfm

/-
This file shows which label sets survive their binary form.
-/

namespace Menoetius

/-- The strings of a label set in the order of the binary form, where no name is the empty one. -/
def LFM.strings (lfm : LFM) : List CString :=
  CString.at (nameBytes lfm.name) :: lfm.labels.flatMap fun label => [label.key, label.value]

/-- The bytes of these strings. -/
def LFM.fields (lfm : LFM) : List (List UInt8) := lfm.strings.map CString.bytes

/-- The binary form has a NUL byte between the strings. -/
def LFM.encoded (lfm : LFM) : List UInt8 := [0].intercalate lfm.fields

theorem LFM.fields_free (lfm : LFM) : ∀ field ∈ lfm.fields, 0 ∉ field := by
  intro field mem
  obtain ⟨text, _, rfl⟩ := List.mem_map.mp mem
  exact text.nulFree

theorem at_nameBytes (name : Option CString) : (CString.at (nameBytes name)).bytes = nameBytes name := by
  cases name with
  | none => rfl
  | some name => rw [nameBytes, CString.at_bytes]

theorem LFM.encoded_eq (lfm : LFM) :
    lfm.encoded = nameBytes lfm.name ++
      lfm.labels.flatMap fun label => 0 :: label.key.bytes ++ 0 :: label.value.bytes := by
  rw [LFM.encoded, LFM.fields, LFM.strings, List.map_cons, at_nameBytes, Fields.intercalate_cons_eq, List.map_flatMap,
    List.flatMap_assoc]
  congr 2
  funext label
  simp

theorem addToInt_bmod (sum amount : Nat) :
    addToInt (Int.bmod sum (2 ^ 32)) amount = Int.bmod ((sum + amount : Nat) : Int) (2 ^ 32) := by
  rw [addToInt, Int.bmod_add_bmod, Int.natCast_add]

/-- The count of the bytes, with some more for each label, is right up to the range of an `int`. -/
theorem encodeCount_eq (extra : Nat) (labels : List KeyValue) (start : Nat) :
    labels.foldl (fun sum label =>
        addToInt (addToInt (addToInt sum extra) label.key.bytes.length) label.value.bytes.length)
        (Int.bmod start (2 ^ 32)) =
      Int.bmod ((start + (labels.map fun label =>
        extra + label.key.bytes.length + label.value.bytes.length).sum : Nat) : Int) (2 ^ 32) := by
  induction labels generalizing start with
  | nil => rw [List.foldl_nil, List.map_nil, List.sum_nil, Nat.add_zero]
  | cons label labels ih =>
      rw [List.foldl_cons, addToInt_bmod, addToInt_bmod, addToInt_bmod, ih, List.map_cons, List.sum_cons,
        ← Nat.add_assoc, ← Nat.add_assoc, ← Nat.add_assoc]

/-- A length is its own value as an `int` below two to the power of 31 only. -/
theorem le_bmod_iff (length : Nat) : (length : Int) ≤ Int.bmod length (2 ^ 32) ↔ length < 2 ^ 31 := by
  constructor
  · intro le
    have bound : Int.bmod length (2 ^ 32) < 2 ^ 31 := lt_of_lt_of_le (Int.bmod_lt (by norm_num)) (by norm_num)
    omega
  · intro small
    rw [Int.bmod_eq_of_le (by omega) (by norm_num; omega)]

/-- The encoder returns the binary form if its length is an `int`. -/
theorem encodeBinaryLfm_eq (lfm : LFM) :
    encodeBinaryLfm lfm =
      if lfm.encoded.length < 2 ^ 31 then .ok lfm.encoded else .error (.abort .memory) := by
  have count := encodeCount_eq 2 lfm.labels (nameBytes lfm.name).length
  have length : (nameBytes lfm.name).length + (lfm.labels.map fun label =>
      2 + label.key.bytes.length + label.value.bytes.length).sum = lfm.encoded.length := by
    rw [lfm.encoded_eq, List.length_append, List.length_flatMap]
    congr 3
    funext label
    simp only [List.cons_append, List.length_cons, List.length_append]
    omega
  rw [length] at count
  have start : addToInt 0 (nameBytes lfm.name).length = Int.bmod ((nameBytes lfm.name).length : Int) (2 ^ 32) := by
    rw [addToInt, zero_add]
  unfold encodeBinaryLfm
  rw [← lfm.encoded_eq, start, count]
  simp only [le_bmod_iff]
  rfl

/-- The fields that the parser copies. -/
def fieldsIn (bytes : List UInt8) : List CString := (Fields.pieces 0 bytes).map CString.at

/-- Strings that a scan reads are the fields of the bytes. -/
theorem fieldsIn_eq {bytes : List UInt8} {fields : List CString}
    (scanned : Fields.pieces 0 bytes = fields.map CString.bytes) : fieldsIn bytes = fields := by
  rw [fieldsIn, scanned, List.map_map]
  exact (List.map_congr_left fun field _ => field.at_bytes).trans (List.map_id fields)

/-- The loop takes the fields one after the other. -/
theorem parseFields_eq (state : ParseState) {fuel : Nat} {bytes : List UInt8} (enough : bytes.length ≤ fuel) :
    parseFields state fuel bytes = (fieldsIn bytes).foldlM parseField state := by
  induction fuel generalizing state bytes with
  | zero =>
      obtain rfl : bytes = [] := List.eq_nil_of_length_eq_zero (by omega)
      rfl
  | succ fuel ih =>
      rw [parseFields]
      split
      next empty => rw [empty]; rfl
      next full =>
        have long := List.length_pos_iff.mpr full
        have split : fieldsIn bytes =
            CString.at bytes :: fieldsIn (bytes.drop ((CString.at bytes).bytes.length + 1)) := by
          have pieces := @Fields.pieces_eq UInt8 0 _ bytes full
          have same : (bytes.takeWhile fun item => decide (item ≠ 0)) = (CString.at bytes).bytes := by
            simp only [CString.at, bne, ne_eq, decide_not]
            rfl
          rw [same] at pieces
          rw [fieldsIn, pieces, List.map_cons, CString.at_bytes]
          rfl
        rw [split, List.foldlM_cons]
        refine congrArg _ (funext fun next => ih next ?_)
        rw [List.length_drop]
        omega

/-- The labels that fields spell, where two fields make one label. -/
def labelsOf : List CString → List KeyValue
  | key :: value :: rest => ⟨key, value⟩ :: labelsOf rest
  | _ => []

/-- The key that is left without a value. -/
def spareKey : List CString → Option CString
  | [] => none
  | [key] => some key
  | _ :: _ :: rest => spareKey rest

/-- The label set that a byte string spells: a name, and then the labels. -/
def spelled (bytes : List UInt8) : LFM :=
  { name := (fieldsIn bytes).head?, labels := labelsOf (fieldsIn bytes).tail }

theorem parseField_key {state : ParseState} {lfm : LFM.Growing} (known : state.lfm = some lfm)
    (odd : state.index % 2 = 1) (field : CString) :
    parseField state field =
      if 2 ^ 31 ≤ field.bytes.length + 1 then .error (.abort .memory)
      else .ok { state with index := state.index + 1, key := some field } := by
  have later : state.index ≠ 0 := by omega
  simp only [parseField, if_neg later, known, if_pos odd]
  rfl

theorem parseField_value {state : ParseState} {lfm : LFM.Growing} {key : CString} (known : state.lfm = some lfm)
    (held : state.key = some key) (even : state.index % 2 = 0) (later : state.index ≠ 0)
    (grows : 0 < lfm.maxNumLabels) (field : CString) :
    parseField state field =
      if 2 ^ 31 ≤ field.bytes.length + 1 ∨ lfm.maxNumLabels ≤ lfm.labels.length then .error (.abort .memory)
      else .ok { index := state.index + 1, lfm := some { lfm with labels := lfm.labels ++ [⟨key, field⟩] },
                 key := none } := by
  have notOdd : ¬ state.index % 2 = 1 := by omega
  simp only [parseField, if_neg later, known, if_neg notOdd, held, lfmAddLabelUnsorted, if_pos grows]
  by_cases long : 2 ^ 31 ≤ field.bytes.length + 1
  · rw [if_pos long, if_pos (Or.inl long)]
    rfl
  by_cases full : lfm.maxNumLabels ≤ lfm.labels.length
  · rw [if_neg long, if_pos full, if_pos (Or.inr full)]
    rfl
  · rw [if_neg long, if_neg full, if_neg (not_or.mpr ⟨long, full⟩)]
    rfl

/-- A computation that returns has returned from its first part. -/
theorem except_bind_ok {α β : Type} {first : Except Failure α} {rest : α → Except Failure β} {after : β}
    (run : (first >>= rest) = .ok after) : ∃ value, first = .ok value ∧ rest value = .ok after := by
  cases first with
  | error failure => cases run
  | ok value => exact ⟨value, rfl, run⟩

/-- A step that refuses some states goes on from the others. -/
theorem bind_unless_ok_iff {α β : Type} {refused : Prop} [Decidable refused] {failure : Failure} {next : α}
    {rest : α → Except Failure β} {after : β} :
    ((if refused then .error failure else .ok next) >>= rest) = .ok after ↔ ¬ refused ∧ rest next = .ok after := by
  by_cases holds : refused
  · simp [holds, bind, Except.bind]
  · simp [holds, bind, Except.bind]

/-- Behind the name, the loop collects the labels that the fields spell. -/
theorem parseLabels_ok_iff {fields : List CString} {state after : ParseState} {lfm : LFM.Growing}
    (known : state.lfm = some lfm) (noKey : state.key = none) (odd : state.index % 2 = 1)
    (grows : 0 < lfm.maxNumLabels) (room : lfm.labels.length ≤ lfm.maxNumLabels) :
    fields.foldlM parseField state = .ok after ↔
      (∀ field ∈ fields, field.bytes.length + 1 < 2 ^ 31) ∧
      lfm.labels.length + (labelsOf fields).length ≤ lfm.maxNumLabels ∧
      after = { index := state.index + fields.length, key := spareKey fields,
                lfm := some { lfm with labels := lfm.labels ++ labelsOf fields } } := by
  fun_induction spareKey fields generalizing state lfm with
  | case1 =>
      obtain ⟨index, _, _⟩ := state
      cases known
      cases noKey
      simp [labelsOf, room, pure, Except.pure, eq_comm]
  | case2 key =>
      obtain ⟨index, _, _⟩ := state
      cases known
      rw [List.foldlM_cons, parseField_key rfl odd, bind_unless_ok_iff, not_le, List.forall_mem_singleton]
      simp [labelsOf, room, pure, Except.pure, eq_comm]
  | case3 key value rest ih =>
      let labelled : LFM.Growing := { lfm with labels := lfm.labels ++ [⟨key, value⟩] }
      rw [List.foldlM_cons, parseField_key known odd, bind_unless_ok_iff, List.foldlM_cons,
        @parseField_value { state with index := state.index + 1, key := some key } lfm key known rfl
          (by simp only; omega) (by simp) grows, bind_unless_ok_iff, not_or, not_le, not_le, not_le,
        List.forall_mem_cons, List.forall_mem_cons]
      by_cases free : lfm.labels.length < lfm.maxNumLabels
      · have added : labelled.labels.length = lfm.labels.length + 1 := List.length_append
        have collected := @ih { index := state.index + 1 + 1, lfm := some labelled, key := none } labelled rfl rfl
          (by simp only; omega) grows (by rw [added]; exact free)
        rw [collected, added]
        have length : state.index + 1 + 1 + rest.length = state.index + (key :: value :: rest).length := by
          simp only [List.length_cons]
          omega
        have count : lfm.labels.length + 1 + (labelsOf rest).length =
            lfm.labels.length + (labelsOf (key :: value :: rest)).length := by
          simp only [labelsOf, List.length_cons]
          omega
        have labels : labelled.labels ++ labelsOf rest = lfm.labels ++ labelsOf (key :: value :: rest) :=
          List.append_assoc _ _ _
        rw [length, count, labels]
        simp only [free, and_true, and_assoc]
        rfl
      · have full : ¬ lfm.labels.length + (labelsOf (key :: value :: rest)).length ≤ lfm.maxNumLabels := by
          simp only [labelsOf, List.length_cons]
          omega
        simp only [free, full, and_false, false_and]

/-- The parser returns the label set that the bytes spell, with its labels sorted. -/
theorem parseBinaryLfm_ok_iff {bytes : List UInt8} {lfm : LFM} :
    parseBinaryLfm bytes = .ok lfm ↔
      (∀ field ∈ fieldsIn bytes, field.bytes.length + 1 < 2 ^ 31) ∧ (spelled bytes).labels.length ≤ 64 ∧
      spareKey (fieldsIn bytes).tail = none ∧ lfm = lfmSortLabels (spelled bytes) := by
  rw [parseBinaryLfm, parseFields_eq _ le_rfl, spelled]
  cases fieldsIn bytes with
  | nil =>
      simp only [List.foldlM_nil, List.tail_nil, labelsOf, spareKey]
      change Except.ok _ = Except.ok lfm ↔ _
      simp only [Except.ok.injEq, List.not_mem_nil, false_implies, implies_true, true_and, List.length_nil,
        Nat.zero_le]
      exact eq_comm
  | cons name fields =>
      let named : LFM.Growing := lfmNew (some name)
      have first : parseField { index := 0, lfm := none, key := none } name =
          if 2 ^ 31 ≤ name.bytes.length + 1 then .error (.abort .memory)
          else .ok { index := 1, lfm := some named, key := none } := rfl
      have collect := fun after => @parseLabels_ok_iff fields { index := 1, lfm := some named, key := none } after
        named rfl rfl rfl (Nat.zero_lt_succ _) (Nat.zero_le _)
      rw [List.foldlM_cons, first, List.tail_cons, List.head?_cons, List.forall_mem_cons]
      constructor
      · intro run
        obtain ⟨state, run, done⟩ := except_bind_ok run
        obtain ⟨short, run⟩ := bind_unless_ok_iff.mp run
        obtain ⟨others, room, rfl⟩ := (collect state).mp run
        by_cases spare : spareKey fields = none
        · rw [if_neg (by simpa using spare)] at done
          refine ⟨⟨not_le.mp short, others⟩, ?_, spare, ?_⟩
          · simpa [named, lfmNew] using room
          · exact (Except.ok.inj done).symm
        · rw [if_pos spare] at done
          cases done
      · rintro ⟨⟨short, others⟩, room, spare, rfl⟩
        have run := (collect _).mpr ⟨others, by simpa [named, lfmNew] using room, rfl⟩
        rw [if_neg (not_le.mpr short)]
        change (List.foldlM parseField _ fields >>= _) = _
        rw [run]
        change (if spareKey fields ≠ none then _ else _) = _
        rw [if_neg (by simpa using spare)]
        rfl

theorem labelsOf_flatMap (labels : List KeyValue) :
    labelsOf (labels.flatMap fun label => [label.key, label.value]) = labels := by
  induction labels with
  | nil => rfl
  | cons label labels ih => exact congrArg (label :: ·) ih

theorem spareKey_flatMap (labels : List KeyValue) (rest : List CString) :
    spareKey ((labels.flatMap fun label => [label.key, label.value]) ++ rest) = spareKey rest := by
  induction labels with
  | nil => rfl
  | cons label labels ih => exact ih

/-- The labels stand in the order of pairwise distinct keys. -/
def LFM.Sorted (lfm : LFM) : Prop := lfm.labels.Pairwise fun first second => keyValueCmp first second = .lt

/-- Two label sets are the same where no name counts as the empty name. -/
def LFM.Same (first second : LFM) : Prop :=
  nameBytes first.name = nameBytes second.name ∧ first.labels = second.labels

/-- A label set fits the parser's array, its length is an `int`, as is that of each field with its NUL byte, and the last
value has something in it. -/
def LFM.Survives (lfm : LFM) : Prop :=
  lfm.labels.length ≤ 64 ∧ lfm.encoded.length < 2 ^ 31 ∧ (∀ field ∈ lfm.strings, field.bytes.length + 1 < 2 ^ 31) ∧
    ∀ label ∈ lfm.labels.getLast?, label.value.bytes ≠ []

instance (lfm : LFM) : Decidable lfm.Survives := inferInstanceAs (Decidable (_ ∧ _ ∧ _ ∧ _))

theorem lfmSortLabels_sorted {lfm : LFM} (sorted : lfm.Sorted) : lfmSortLabels lfm = lfm := by
  have weak : lfm.labels.Pairwise fun first second => (keyValueCmp first second).isLE = true :=
    sorted.imp fun less => by rw [less]; rfl
  rw [lfmSortLabels, List.mergeSort_of_pairwise weak]

/-- The parser reads the fields of a binary form but for an empty last one. -/
theorem fieldsIn_encoded {lfm : LFM} {front : List CString} {last : CString} (split : lfm.strings = front ++ [last]) :
    fieldsIn lfm.encoded = if last.bytes = [] then front else front ++ [last] := by
  have free : ∀ field ∈ front.map CString.bytes, 0 ∉ field := by
    intro field mem
    obtain ⟨text, _, rfl⟩ := List.mem_map.mp mem
    exact text.nulFree
  apply fieldsIn_eq
  rw [LFM.encoded, LFM.fields, split, List.map_append, List.map_singleton, Fields.pieces_intercalate free last.nulFree]
  split
  · rfl
  · rw [List.map_append, List.map_singleton]

/-- What holds of an empty string holds of the fields that the parser reads, if it holds of those that are printed. -/
theorem forall_fieldsIn_encoded {lfm : LFM} {holds : CString → Prop} (empty : ∀ field, field.bytes = [] → holds field) :
    (∀ field ∈ fieldsIn lfm.encoded, holds field) ↔ ∀ field ∈ lfm.strings, holds field := by
  rcases List.eq_nil_or_concat lfm.strings with none | ⟨front, last, split⟩
  · exact absurd none (List.cons_ne_nil _ _)
  · rw [List.concat_eq_append] at split
    rw [fieldsIn_encoded split, split]
    split
    next hollow => simp only [List.forall_mem_append, List.forall_mem_singleton, empty last hollow, and_true]
    next => exact Iff.rfl

/-- A label set comes back from its binary form if and only if it survives it. -/
theorem reparse_iff {lfm : LFM} (sorted : lfm.Sorted) :
    (∃ again, (encodeBinaryLfm lfm >>= parseBinaryLfm) = .ok again ∧ again.Same lfm) ↔ lfm.Survives := by
  rw [encodeBinaryLfm_eq, LFM.Survives]
  by_cases size : lfm.encoded.length < 2 ^ 31
  swap
  · rw [if_neg size]
    constructor
    · rintro ⟨again, run, _⟩
      cases run
    · exact fun survives => absurd survives.2.1 size
  rw [if_pos size]
  change (∃ again, parseBinaryLfm lfm.encoded = .ok again ∧ again.Same lfm) ↔ _
  have lengths := @forall_fieldsIn_encoded lfm (fun field => field.bytes.length + 1 < 2 ^ 31) fun field hollow => by
    rw [hollow]
    decide
  by_cases fits : ∀ field ∈ lfm.strings, field.bytes.length + 1 < 2 ^ 31
  swap
  · constructor
    · rintro ⟨again, run, _⟩
      exact absurd (lengths.mp (parseBinaryLfm_ok_iff.mp run).1) fits
    · exact fun survives => absurd survives.2.2.1 fits
  have short := lengths.mpr fits
  simp only [parseBinaryLfm_ok_iff]
  rcases List.eq_nil_or_concat lfm.labels with empty | ⟨front, label, labels⟩
  · -- Without a label only the name is there, and it is read as `NULL` where it is empty.
    have strings : lfm.strings = [] ++ [CString.at (nameBytes lfm.name)] := by
      rw [LFM.strings, empty]
      rfl
    have fields := fieldsIn_encoded strings
    rw [at_nameBytes] at fields
    have survives : lfm.labels.length ≤ 64 ∧ lfm.encoded.length < 2 ^ 31 ∧
        (∀ field ∈ lfm.strings, field.bytes.length + 1 < 2 ^ 31) ∧
        ∀ label ∈ lfm.labels.getLast?, label.value.bytes ≠ [] := ⟨by simp [empty], size, fits, by simp [empty]⟩
    refine iff_of_true ⟨_, ⟨short, ?_, ?_, rfl⟩, ?_, ?_⟩ survives
    · rw [spelled, fields]
      split <;> exact Nat.zero_le _
    · rw [fields]
      split <;> rfl
    · rw [lfmSortLabels, spelled, fields]
      split
      next unnamed => exact unnamed.symm
      next => exact at_nameBytes lfm.name
    · rw [lfmSortLabels, spelled, fields, empty]
      split <;> exact List.mergeSort_nil
  · rw [List.concat_eq_append] at labels
    have strings : lfm.strings = (CString.at (nameBytes lfm.name) ::
        (front.flatMap fun label => [label.key, label.value]) ++ [label.key]) ++ [label.value] := by
      rw [LFM.strings, labels, List.flatMap_append]
      simp
    have fields := fieldsIn_encoded strings
    have last : lfm.labels.getLast? = some label := by rw [labels, List.getLast?_concat]
    by_cases hollow : label.value.bytes = []
    · -- The parser never sees the value, so that its key is left over.
      rw [if_pos hollow] at fields
      refine iff_of_false ?_ fun survives => survives.2.2.2 label last hollow
      rintro ⟨again, ⟨_, _, spare, _⟩, _⟩
      rw [fields, List.cons_append, List.tail_cons, spareKey_flatMap] at spare
      cases spare
    · rw [if_neg hollow, ← strings] at fields
      have tail : (fieldsIn lfm.encoded).tail = lfm.labels.flatMap fun label => [label.key, label.value] := by
        rw [fields]
        rfl
      have read : spelled lfm.encoded = { name := some (CString.at (nameBytes lfm.name)), labels := lfm.labels } := by
        rw [spelled, tail, labelsOf_flatMap, fields]
        rfl
      have spare : spareKey (fieldsIn lfm.encoded).tail = none := by
        rw [tail, ← List.append_nil (List.flatMap _ _), spareKey_flatMap]
        rfl
      have order : lfmSortLabels { name := some (CString.at (nameBytes lfm.name)), labels := lfm.labels } =
          { name := some (CString.at (nameBytes lfm.name)), labels := lfm.labels } := lfmSortLabels_sorted sorted
      rw [read, order]
      constructor
      · rintro ⟨again, ⟨_, room, _, _⟩, _⟩
        refine ⟨room, size, fits, fun other found => ?_⟩
        rw [last] at found
        cases found
        exact hollow
      · rintro ⟨room, _⟩
        exact ⟨_, ⟨short, room, spare, rfl⟩, at_nameBytes lfm.name, rfl⟩

/-- Sorting labels with distinct keys leaves each key below the next one. -/
theorem lfmSortLabels_of_distinct {lfm : LFM}
    (distinct : lfm.labels.Pairwise fun first second => first.key ≠ second.key) : (lfmSortLabels lfm).Sorted := by
  have weak := lfmSortLabels_pairwise lfm
  have apart := (lfmSortLabels_perm lfm).symm.pairwise distinct fun different equal => different equal.symm
  refine (weak.and apart).imp fun {first second} both => ?_
  obtain ⟨below, different⟩ := both
  cases order : keyValueCmp first second with
  | lt => rfl
  | gt => simp [order] at below
  | eq =>
      have same : first.key.bytes = second.key.bytes := Std.LawfulEqCmp.eq_of_compare order
      exact absurd (CString.ext_bytes same) different

/-- A label set that is encoded and parsed comes back. -/
def LFM.ComesBack (lfm : LFM) : Prop :=
  ∃ again, (encodeBinaryLfm lfm >>= parseBinaryLfm) = .ok again ∧ again.Same lfm

/-- Sorted label sets, and those that the parser accepts, come back if and only if they survive the binary form. -/
theorem binaryLfm_comesBack_iff (lfm : LFM) :
    (lfm.Sorted → (lfm.ComesBack ↔ lfm.Survives)) ∧
    ∀ bytes : List UInt8, parseBinaryLfm bytes = .ok lfm →
      ((spelled bytes).labels.Pairwise fun first second => first.key ≠ second.key) →
      (lfm.ComesBack ↔ (lfmSortLabels (spelled bytes)).Survives) := by
  refine ⟨reparse_iff, fun bytes accepted distinct => ?_⟩
  obtain ⟨_, _, _, rfl⟩ := parseBinaryLfm_ok_iff.mp accepted
  exact reparse_iff (lfmSortLabels_of_distinct distinct)

/-- The label set `m{a="",b="1"}`. -/
def hollowFirst : LFM :=
  { name := some ⟨[109], by decide⟩,
    labels := [⟨⟨[97], by decide⟩, ⟨[], by decide⟩⟩, ⟨⟨[98], by decide⟩, ⟨[49], by decide⟩⟩] }

/-- The label set `m{a=""}`. -/
def hollowLast : LFM :=
  { name := some ⟨[109], by decide⟩, labels := [⟨⟨[97], by decide⟩, ⟨[], by decide⟩⟩] }

theorem binaryLfm_comesBack_hollowFirst : hollowFirst.Sorted ∧ hollowFirst.ComesBack :=
  have sorted : hollowFirst.Sorted := by
    simp only [LFM.Sorted, hollowFirst]
    decide
  ⟨sorted, ((binaryLfm_comesBack_iff hollowFirst).1 sorted).mpr (by decide)⟩

/-- The parser refuses the bytes of a label set whose last value is empty. -/
theorem binaryLfm_hollowLast :
    hollowLast.Sorted ∧ (encodeBinaryLfm hollowLast >>= parseBinaryLfm) = .error (.code (.res 1)) ∧
      ¬ hollowLast.ComesBack := by
  have refused : (encodeBinaryLfm hollowLast >>= parseBinaryLfm) = .error (.code (.res 1)) := by decide
  refine ⟨by simp only [LFM.Sorted, hollowLast]; decide, refused, ?_⟩
  rintro ⟨again, run, _⟩
  rw [refused] at run
  cases run

end Menoetius
