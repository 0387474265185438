import Menoetius.HumanParse
import Menoetius.LfmRoundTrip

/-
This file says which label sets `parse_human_lfm` reads back from their printed form.
-/

namespace Menoetius

/-- The encoder prints such a value as it stands, and the parser reads it as it stands. -/
def PlainValue (value : CString) : Prop := 34 ∉ value.bytes ∧ 92 ∉ value.bytes

instance (value : CString) : Decidable (PlainValue value) := inferInstanceAs (Decidable (_ ∧ _))

theorem unescapes_self {bytes : List UInt8} (nulFree : 0 ∉ bytes) (noQuote : 34 ∉ bytes)
    (noEscape : 92 ∉ bytes) : Unescapes bytes bytes := by
  induction bytes with
  | nil => exact .nil
  | cons c bytes ih =>
      simp only [List.mem_cons, not_or] at nulFree noQuote noEscape
      exact .plain (Ne.symm nulFree.1) (Ne.symm noQuote.1) (Ne.symm noEscape.1)
        (ih nulFree.2 noQuote.2 noEscape.2)

/-- A text that is no longer than its value has nothing to escape. -/
theorem Unescapes.plain_of_le {raw bytes : List UInt8} (unescapes : Unescapes raw bytes)
    (short : raw.length ≤ bytes.length) : 34 ∉ bytes ∧ 92 ∉ bytes := by
  induction unescapes with
  | nil => simp
  | plain nonzero noQuote noEscape _ ih =>
      have rest := ih (by simpa using short)
      simp only [List.mem_cons, not_or]
      exact ⟨⟨Ne.symm noQuote, rest.1⟩, Ne.symm noEscape, rest.2⟩
  | escaped rest _ =>
      have length := rest.length_le
      simp only [List.length_cons] at short
      omega

/-- The length of the printed labels with the closing brace, and with a comma or the brace after each. -/
def printedLength (labels : List KeyValue) : Nat :=
  (labels.map fun label => label.key.bytes.length + label.value.bytes.length + 4).sum

theorem encodeHumanLabels_length {labels : List KeyValue} (nonempty : labels ≠ []) :
    (encodeHumanLabels labels).length = printedLength labels + 1 := by
  cases labels with
  | nil => exact absurd rfl nonempty
  | cons label labels =>
      have rest : (labels.flatMap fun label => [44] ++ encodeHumanLabel label).length =
          printedLength labels := by
        rw [List.length_flatMap, printedLength]
        congr 2
        funext label
        simp [encodeHumanLabel]
        omega
      simp only [encodeHumanLabels, List.length_append, rest, printedLength, List.map_cons, List.sum_cons]
      simp [encodeHumanLabel]
      omega

/-- The text of some labels is at least as long as their printed form, and longer if it has escapes. -/
theorem LabelsText.length_le {fits : Nat → Prop} {labels : List KeyValue} {text : List UInt8}
    (spelled : LabelsText fits labels text) :
    printedLength labels ≤ text.length ∧
      (text.length ≤ printedLength labels → ∀ label ∈ labels, PlainValue label.value) := by
  have pair : ∀ {label : KeyValue} {text : List UInt8}, LabelText fits label text →
      label.key.bytes.length + label.value.bytes.length + 3 ≤ text.length ∧
        (text.length ≤ label.key.bytes.length + label.value.bytes.length + 3 → PlainValue label.value) := by
    rintro label text ⟨a, b, c, raw, -, unescapes⟩
    have length := unescapes.length_le
    refine ⟨by simp; omega, fun short => unescapes.plain_of_le ?_⟩
    simp at short
    omega
  induction spelled with
  | close a => simp [printedLength]
  | last a spelled =>
      obtain ⟨least, plain⟩ := pair spelled
      simp only [printedLength, List.map_cons, List.map_nil, List.sum_cons, List.sum_nil, List.length_append,
        List.length_singleton, List.mem_singleton, forall_eq]
      exact ⟨by omega, fun short => plain (by omega)⟩
  | more a spelled tail ih =>
      obtain ⟨least, plain⟩ := pair spelled
      obtain ⟨rest, others⟩ := ih
      simp only [printedLength, List.map_cons, List.sum_cons, List.length_append, List.length_cons,
        List.forall_mem_cons] at rest others ⊢
      exact ⟨by omega, fun short => ⟨plain (by omega), others (by omega)⟩⟩

/-- Printed labels with plain values are in the grammar. -/
theorem labelsText_encoded (label : KeyValue) (labels : List KeyValue)
    (keys : ∀ other ∈ label :: labels, IdentText other.key.bytes)
    (plain : ∀ other ∈ label :: labels, PlainValue other.value)
    (small : ∀ other ∈ label :: labels, IsInt (10 + other.key.bytes.length + other.value.bytes.length)) :
    LabelsText IsInt (label :: labels)
      (encodeHumanLabel label ++ labels.flatMap (fun label => [44] ++ encodeHumanLabel label) ++ [125]) := by
  have pair : ∀ other ∈ label :: labels, LabelText IsInt other (encodeHumanLabel other) := by
    intro other member
    have short := small other member
    have text := LabelText.pair 0 0 0 other.value.bytes (keys other member)
      (unescapes_self other.value.nulFree (plain other member).1 (plain other member).2)
      (short.less (by omega)) (short.less (by omega))
    simpa [blanks, encodeHumanLabel] using text
  induction labels generalizing label with
  | nil => simpa [blanks] using LabelsText.last 0 (pair label List.mem_cons_self)
  | cons next labels ih =>
      have tail := ih next (fun other member => keys other (List.mem_cons_of_mem _ member))
        (fun other member => plain other (List.mem_cons_of_mem _ member))
        (fun other member => small other (List.mem_cons_of_mem _ member))
        (fun other member => pair other (List.mem_cons_of_mem _ member))
      simpa [blanks] using LabelsText.more 0 (pair label List.mem_cons_self) tail

/-- The label set is printed and parsed again without a change. -/
def LFM.ReadsBack (lfm : LFM) : Prop :=
  ∃ text, encodeHumanLfm lfm = .ok text ∧ ∀ beyond, parseHumanLfm (text ++ 0 :: beyond) = .ok lfm

/-- The size that the encoder asks for. -/
def LFM.humanSize (lfm : LFM) : Nat :=
  (nameBytes lfm.name).length +
    (lfm.labels.map fun label => 10 + label.key.bytes.length + label.value.bytes.length).sum + 1

/-- The printed form of a label set. -/
def LFM.printed (lfm : LFM) : List UInt8 := nameBytes lfm.name ++ encodeHumanLabels lfm.labels

theorem encodeHumanLfm_eq (lfm : LFM) :
    encodeHumanLfm lfm =
      if (lfm.printed.length : Int) + 1 ≤ Int.bmod lfm.humanSize (2 ^ 32) then .ok lfm.printed
      else .error (.abort .memory) := by
  have count := encodeCount_eq 10 lfm.labels (nameBytes lfm.name).length
  have start : addToInt 0 (nameBytes lfm.name).length = Int.bmod ((nameBytes lfm.name).length : Int) (2 ^ 32) := by
    rw [addToInt, zero_add]
  unfold encodeHumanLfm
  simp only [start, count, addToInt_bmod]
  rfl

theorem LFM.humanSize_eq (lfm : LFM) :
    lfm.humanSize = (nameBytes lfm.name).length + printedLength lfm.labels + 6 * lfm.labels.length + 1 := by
  have sum : ∀ labels : List KeyValue,
      (labels.map fun label => 10 + label.key.bytes.length + label.value.bytes.length).sum =
        printedLength labels + 6 * labels.length := by
    intro labels
    induction labels with
    | nil => rfl
    | cons label labels ih =>
        simp only [List.map_cons, List.sum_cons, ih, printedLength, List.length_cons]
        omega
  rw [LFM.humanSize, sum]
  omega

/-- For a label set that fits the parser's array, the encoder succeeds if its size is an `int`. -/
theorem encodeHumanLfm_ok_iff (lfm : LFM) (room : lfm.labels.length ≤ 64) :
    encodeHumanLfm lfm = .ok lfm.printed ↔ lfm.humanSize < 2 ^ 31 := by
  have size := lfm.humanSize_eq
  have length : lfm.printed.length + 1 ≤ lfm.humanSize ∧ lfm.humanSize ≤ lfm.printed.length + 1 + 384 := by
    by_cases none : lfm.labels = []
    · rw [size, LFM.printed, none]
      simp [encodeHumanLabels, printedLength]
    · have positive := List.length_pos_iff.mpr none
      rw [size, LFM.printed, List.length_append, encodeHumanLabels_length none]
      omega
  rw [encodeHumanLfm_eq]
  constructor
  · intro run
    split at run
    · rename_i covered
      have bound : Int.bmod lfm.humanSize (2 ^ 32) < 2 ^ 31 := lt_of_lt_of_le (Int.bmod_lt (by norm_num)) (by norm_num)
      have near : Int.bmod lfm.humanSize (2 ^ 32) = lfm.humanSize := by
        rw [Int.bmod_def] at covered ⊢
        norm_num at covered ⊢
        split at covered <;> omega
      omega
    · cases run
  · intro small
    have exact : Int.bmod lfm.humanSize (2 ^ 32) = lfm.humanSize :=
      Int.bmod_eq_of_le (by omega) (by norm_num; omega)
    rw [exact, if_pos (by omega)]

section Named
variable {lfm : LFM} {name : CString}

/-- A printed label set with plain values is in the grammar. -/
theorem humanText_printed (named : lfm.name = some name)
    (ident : IdentText name.bytes ∨ name.bytes = [] ∧ lfm.labels ≠ [])
    (keys : ∀ label ∈ lfm.labels, IdentText label.key.bytes)
    (plain : ∀ label ∈ lfm.labels, PlainValue label.value) (small : IsInt lfm.humanSize) :
    HumanText IsInt name lfm.labels lfm.printed := by
  have short : IsInt (name.bytes.length + 1) := by
    refine small.less ?_
    rw [LFM.humanSize, named]
    exact Nat.add_le_add_right (Nat.le_add_right _ _) 1
  have others : ∀ label ∈ lfm.labels, IsInt (10 + label.key.bytes.length + label.value.bytes.length) := by
    intro label member
    have part := List.le_sum_of_mem (List.mem_map_of_mem (f := fun label : KeyValue =>
      10 + label.key.bytes.length + label.value.bytes.length) member)
    refine small.less ?_
    rw [LFM.humanSize]
    omega
  rw [LFM.printed, named]
  cases labels : lfm.labels with
  | nil =>
      have ident := ident.resolve_right fun empty => empty.2 labels
      simpa [blanks, encodeHumanLabels, nameBytes] using HumanText.name 0 0 ident short
  | cons label rest =>
      rw [labels] at keys plain others
      have front : NameText IsInt name name.bytes := by
        rcases ident with ident | ⟨empty, -⟩
        · exact .present 0 ident short
        · have same : name = CString.at [] := CString.ext_bytes empty
          rw [same]
          exact .absent
      have body := labelsText_encoded label rest keys plain others
      simpa [blanks, encodeHumanLabels, nameBytes] using
        HumanText.braces 0 ⟨name.bytes, 0, _, front, body, rfl⟩

theorem printed_nulFree (lfm : LFM) : 0 ∉ lfm.printed := by
  have label : ∀ label : KeyValue, 0 ∉ encodeHumanLabel label := by
    intro label
    simp [encodeHumanLabel, label.key.nulFree, label.value.nulFree]
  have name : 0 ∉ nameBytes lfm.name := by
    cases lfm.name with
    | none => simp [nameBytes]
    | some name => exact name.nulFree
  rw [LFM.printed, List.mem_append, not_or]
  refine ⟨name, ?_⟩
  cases lfm.labels with
  | nil => simp [encodeHumanLabels]
  | cons first labels => simp [encodeHumanLabels, label]

/-- A label set whose printed form is read back as itself has no escapes in it. -/
theorem plain_of_readsBack (named : lfm.name = some name) {text rest : List UInt8} {labels : List KeyValue}
    (spelled : BracesText IsInt name labels text) (whole : lfm.printed = text ++ rest)
    (same : labels.Perm lfm.labels) : ∀ label ∈ lfm.labels, PlainValue label.value := by
  by_cases none : lfm.labels = []
  · simp [none]
  obtain ⟨front, count, body, front', inner, rfl⟩ := spelled
  obtain ⟨least, plain⟩ := inner.length_le
  have long : name.bytes.length ≤ front.length := by
    cases front' with
    | absent => simp [CString.at]
    | present a ident => simp
  have equal : printedLength labels = printedLength lfm.labels := (same.map _).sum_eq
  have length := congrArg List.length whole
  rw [LFM.printed, named, List.length_append, encodeHumanLabels_length none] at length
  simp [nameBytes] at length
  intro label member
  exact plain (by omega) label (same.mem_iff.mpr member)

/-- A label set with identifiers for its name and its sorted keys is read back exactly when it has at most
64 labels, no quote or backslash in its values, and a size that is an `int`. -/
theorem humanLfm_readsBack_iff (named : lfm.name = some name)
    (ident : IdentText name.bytes ∨ name.bytes = [] ∧ lfm.labels ≠ [])
    (keys : ∀ label ∈ lfm.labels, IdentText label.key.bytes) (sorted : lfm.Sorted) :
    lfm.ReadsBack ↔ lfm.labels.length ≤ 64 ∧ (∀ label ∈ lfm.labels, PlainValue label.value) ∧
      lfm.humanSize < 2 ^ 31 := by
  have itself : sortedLfm name lfm.labels = lfm := by
    rw [sortedLfm, ← named]
    exact lfmSortLabels_sorted sorted
  constructor
  · rintro ⟨text, printed, read⟩
    have encoded : encodeHumanLfm lfm = .ok lfm.printed := by
      rw [encodeHumanLfm_eq] at printed ⊢
      split at printed
      · rename_i covered
        exact if_pos covered
      · cases printed
    obtain rfl : lfm.printed = text := by
      rw [encoded] at printed
      exact Except.ok.inj printed
    have result := read []
    cases helperRuns lfm.printed (printed_nulFree lfm) with
    | named a b other whole ident _ run =>
        rw [parseHumanLfm, run] at result
        have labels : lfm.labels = [] := by
          rw [← Except.ok.inj result]
          simp [sortedLfm, lfmSortLabels]
        have room : lfm.labels.length ≤ 64 := by simp [labels]
        exact ⟨room, by simp [labels], (encodeHumanLfm_ok_iff lfm room).mp encoded⟩
    | braces other labels front rest whole spelled room run =>
        rw [parseHumanLfm, run] at result
        have back : sortedLfm other labels = lfm := Except.ok.inj result
        have same : labels.Perm lfm.labels := by
          rw [← back]
          exact (lfmSortLabels_perm ⟨some other, labels⟩).symm
        have called : other = name := by
          rw [← back] at named
          exact Option.some.inj named
        rw [same.length_eq] at room
        exact ⟨room, plain_of_readsBack named (called ▸ spelled) whole same,
          (encodeHumanLfm_ok_iff lfm room).mp encoded⟩
    | fails failure own run =>
        rw [parseHumanLfm, run] at result
        cases result
    | overruns front pairs value a raw bytes whole point unescapes small room guarded =>
        have nulFree := printed_nulFree lfm
        rw [whole] at nulFree
        simp only [List.mem_append, List.mem_cons, not_or] at nulFree
        have stops := parseHumanLfmHelper_stops point nulFree.1 room (blanks a ++ 34 :: (raw ++ [92]) ++ [0])
          (by simp) (by rw [List.append_assoc]; exact head_quote a _) _
          (by simpa using scan_overrun unescapes nulFree.2.2.2.1 small a)
        rw [← List.append_assoc, ← whole] at stops
        rw [parseHumanLfm, stops] at result
        cases result
  · rintro ⟨room, plain, small⟩
    refine ⟨lfm.printed, (encodeHumanLfm_ok_iff lfm room).mpr small, fun beyond => ?_⟩
    obtain ⟨rest, reads⟩ := parseHumanLfmHelper_text (humanText_printed named ident keys plain small)
      (printed_nulFree lfm) beyond
    rw [parseHumanLfm, reads.run room fun _ small => small, itself]
    rfl

end Named

/-- The label set `m{k="a",l="b"}`. -/
def plainLfm : LFM where
  name := some (CString.at [109])
  labels := [⟨CString.at [107], CString.at [97]⟩, ⟨CString.at [108], CString.at [98]⟩]

theorem humanLfm_readsBack_plain : plainLfm.ReadsBack :=
  (@humanLfm_readsBack_iff plainLfm (CString.at [109]) rfl (by decide) (by decide)
    (List.pairwise_pair.mpr (by decide))).mpr ⟨by decide, by decide, by decide⟩

/-- The label set named `m` whose label `k` is a quote. -/
def quoteLfm : LFM := { name := some (CString.at [109]), labels := [⟨CString.at [107], CString.at [34]⟩] }

/-- The printed form of a quote ends the string too early. -/
theorem humanLfm_quote :
    ¬ ∀ (lfm : LFM) (name : CString), lfm.name = some name →
      (IdentText name.bytes ∨ name.bytes = [] ∧ lfm.labels ≠ []) →
      (∀ label ∈ lfm.labels, IdentText label.key.bytes) → lfm.Sorted → lfm.ReadsBack := by
  intro claim
  obtain ⟨text, printed, read⟩ := claim quoteLfm (CString.at [109]) rfl (by decide) (by decide)
    (List.pairwise_singleton _ _)
  obtain rfl : quoteLfm.printed = text := by
    have encoded := (encodeHumanLfm_ok_iff quoteLfm (by decide)).mpr (by decide)
    rw [encoded] at printed
    exact Except.ok.inj printed
  have refused : parseHumanLfm (quoteLfm.printed ++ [0]) = .error (.code (.res 1)) := rfl
  have result := read []
  rw [refused] at result
  cases result

end Menoetius
