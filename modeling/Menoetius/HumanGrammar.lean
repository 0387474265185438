import Menoetius.HumanLfm
import Menoetius.HumanToken

/-
This file gives the grammar of human label sets and runs the loop of the parser on it, one token at a time.
-/

namespace Menoetius

/-- The grammar has no bound on the lengths of its tokens. -/
def AnyLength (_ : Nat) : Prop := True

/-- One pair `identifier="quoted string"`, with blanks between its tokens. The key with a NUL byte behind it and the
quoted string have lengths that fit. -/
inductive LabelText (fits : Nat → Prop) (label : KeyValue) : List UInt8 → Prop
  | pair (a b c : Nat) (raw : List UInt8) (key : IdentText label.key.bytes)
      (value : Unescapes raw label.value.bytes) (keyFits : fits (label.key.bytes.length + 1))
      (valueFits : fits (raw.length + 2)) :
      LabelText fits label (blanks a ++ label.key.bytes ++ (blanks b ++ 61 :: (blanks c ++ 34 :: (raw ++ [34]))))

/-- The pairs between the braces and the closing brace. A comma may follow the last pair. -/
inductive LabelsText (fits : Nat → Prop) : List KeyValue → List UInt8 → Prop
  | close (a : Nat) : LabelsText fits [] (blanks a ++ [125])
  | last (a : Nat) {label : KeyValue} {text : List UInt8} (pair : LabelText fits label text) :
      LabelsText fits [label] (text ++ (blanks a ++ [125]))
  | more (a : Nat) {label : KeyValue} {labels : List KeyValue} {text rest : List UInt8}
      (pair : LabelText fits label text) (tail : LabelsText fits labels rest) :
      LabelsText fits (label :: labels) (text ++ (blanks a ++ 44 :: rest))

/-- The token that the loop expects next. -/
inductive LabelStage where
  | key
  | equal (key : CString)
  | value (key : CString)
  | comma

/-- A token leads to the next stage, or to none behind the closing brace. -/
def labelToken (lfm : LFM.Growing) : LabelStage → HumanToken →
    Except Failure (LFM.Growing × Option LabelStage)
  | .key, .closeBrace => .ok (lfm, none)
  | .key, .identifier key => .ok (lfm, some (.equal key))
  | .equal key, .equal => .ok (lfm, some (.value key))
  | .value key, .quotedString value => do
      let lfm ← lfmAddLabelUnsorted lfm key value
      return (lfm, some .comma)
  | .comma, .closeBrace => .ok (lfm, none)
  | .comma, .comma => .ok (lfm, some .key)
  | _, _ => .error (.code (.res 1))

/-- The loop of the parser, one token a turn. -/
def labelStages : Nat → LabelStage → LFM.Growing → List UInt8 → Except Failure (LFM.Growing × List UInt8)
  | 0, _, _, _ => .error (.abort .parseHumanLfm)
  | turns + 1, stage, lfm, s => do
      let (token, s) ← scan s
      let (lfm, next) ← labelToken lfm stage token
      match next with
      | none => return (lfm, s)
      | some stage => labelStages turns stage lfm s

/-- A turn of the loop is four turns of one token each. -/
theorem parseHumanLabels_stages (turns : Nat) (lfm : LFM.Growing) (s : List UInt8) :
    parseHumanLabels turns lfm s = labelStages (4 * turns) .key lfm s := by
  induction turns generalizing lfm s with
  | zero => rfl
  | succ turns ih =>
      rw [parseHumanLabels, show 4 * (turns + 1) = 4 * turns + 1 + 1 + 1 + 1 by omega, labelStages]
      cases scan s with
      | error failure => rfl
      | ok first =>
          obtain ⟨first, s⟩ := first
          cases first <;> try rfl
          rename_i key
          simp only [Except.ok_bind, labelToken]
          rw [labelStages]
          cases scan s with
          | error failure => rfl
          | ok second =>
              obtain ⟨second, s⟩ := second
              cases second <;> try rfl
              simp only [Except.ok_bind, labelToken, ne_eq, not_true_eq_false, if_false]
              rw [labelStages]
              cases scan s with
              | error failure => rfl
              | ok third =>
                  obtain ⟨third, s⟩ := third
                  cases third <;> try rfl
                  rename_i value
                  simp only [Except.ok_bind, labelToken]
                  cases lfmAddLabelUnsorted lfm key value with
                  | error failure => rfl
                  | ok lfm =>
                      simp only [Except.ok_bind, pure, Except.pure]
                      rw [labelStages]
                      cases scan s with
                      | error failure => rfl
                      | ok last =>
                          obtain ⟨last, s⟩ := last
                          cases last <;> try rfl
                          exact ih lfm s

/-- The text from a stage through the closing brace, with the pairs that it adds. -/
inductive StageText (fits : Nat → Prop) : LabelStage → List KeyValue → List UInt8 → Prop
  | close (a : Nat) : StageText fits .key [] (blanks a ++ [125])
  | key (a : Nat) {key : CString} {labels : List KeyValue} {rest : List UInt8}
      (ident : IdentText key.bytes) (keyFits : fits (key.bytes.length + 1))
      (tail : StageText fits (.equal key) labels rest) :
      StageText fits .key labels (blanks a ++ key.bytes ++ rest)
  | equal (a : Nat) {key : CString} {labels : List KeyValue} {rest : List UInt8}
      (tail : StageText fits (.value key) labels rest) : StageText fits (.equal key) labels (blanks a ++ 61 :: rest)
  | value (a : Nat) {key value : CString} {labels : List KeyValue} {raw rest : List UInt8}
      (unescapes : Unescapes raw value.bytes) (valueFits : fits (raw.length + 2))
      (tail : StageText fits .comma labels rest) :
      StageText fits (.value key) (⟨key, value⟩ :: labels) (blanks a ++ 34 :: (raw ++ 34 :: rest))
  | done (a : Nat) : StageText fits .comma [] (blanks a ++ [125])
  | comma (a : Nat) {labels : List KeyValue} {rest : List UInt8} (tail : StageText fits .key labels rest) :
      StageText fits .comma labels (blanks a ++ 44 :: rest)

section Spelled
variable {fits : Nat → Prop} {labels : List KeyValue} {text : List UInt8}

theorem LabelText.any {label : KeyValue} (spelled : LabelText fits label text) : LabelText AnyLength label text := by
  obtain ⟨a, b, c, raw, key, value, -, -⟩ := spelled
  exact .pair a b c raw key value trivial trivial

theorem LabelsText.any (spelled : LabelsText fits labels text) : LabelsText AnyLength labels text := by
  induction spelled with
  | close a => exact .close a
  | last a pair => exact .last a pair.any
  | more a pair _ ih => exact .more a pair.any ih

/-- The stages spell the grammar. -/
theorem stageText_of_labels (spelled : LabelsText fits labels text) : StageText fits .key labels text := by
  induction spelled with
  | close a => exact .close a
  | @last d label text pair =>
      obtain ⟨a, b, c, raw, key, value, keyFits, valueFits⟩ := pair
      have tail := StageText.key a key keyFits (.equal b (.value c value valueFits (.done d)))
      simpa using tail
  | @more d label labels text rest pair tail ih =>
      obtain ⟨a, b, c, raw, key, value, keyFits, valueFits⟩ := pair
      have tail := StageText.key a key keyFits (.equal b (.value c value valueFits (.comma d ih)))
      simpa using tail

/-- What a stage has already read of a label completes its text. -/
theorem labelsText_completed {stage : LabelStage} (spelled : StageText fits stage labels text) :
    match stage with
    | .key => LabelsText fits labels text
    | .equal key => ∀ a, IdentText key.bytes → fits (key.bytes.length + 1) →
        LabelsText fits labels (blanks a ++ key.bytes ++ text)
    | .value key => ∀ a b, IdentText key.bytes → fits (key.bytes.length + 1) →
        LabelsText fits labels (blanks a ++ key.bytes ++ (blanks b ++ 61 :: text))
    | .comma => ∀ label pair, LabelText fits label pair → LabelsText fits (label :: labels) (pair ++ text) := by
  induction spelled with
  | close a => exact .close a
  | key a ident keyFits _ ih => exact ih a ident keyFits
  | equal b _ ih => exact fun a ident keyFits => ih a b ident keyFits
  | @value c key value labels raw rest unescapes valueFits _ ih =>
      intro a b ident keyFits
      have text := ih ⟨key, value⟩ _ (.pair a b c raw ident unescapes keyFits valueFits)
      simpa using text
  | done a => exact fun label pair spelled => .last a spelled
  | comma a _ ih => exact fun label pair spelled => .more a spelled ih

/-- The grammar and the stages describe the same texts. -/
theorem labelsText_iff : LabelsText fits labels text ↔ StageText fits .key labels text :=
  ⟨stageText_of_labels, fun spelled => labelsText_completed spelled⟩

end Spelled

/-- The label set under construction. -/
def growing (name : CString) (labels : List KeyValue) : LFM.Growing := ⟨⟨some name, labels⟩, 64⟩

theorem lfmAddLabel_growing (name key value : CString) (labels : List KeyValue)
    (room : labels.length < 64) :
    lfmAddLabelUnsorted (growing name labels) key value = .ok (growing name (labels ++ [⟨key, value⟩])) :=
  if_neg (Nat.not_le.mpr room)

theorem lfmAddLabel_full (name key value : CString) (labels : List KeyValue)
    (full : 64 ≤ labels.length) :
    lfmAddLabelUnsorted (growing name labels) key value = .error (.abort .memory) := by
  have none : (growing name labels).maxNumLabels ≤ (growing name labels).labels.length := full
  rw [lfmAddLabelUnsorted, if_pos none]
  rfl

section Reading
variable {fits : Nat → Prop} {stage : LabelStage} {labels added : List KeyValue} {text s : List UInt8} {name : CString}

/-- The head of a stage behind an identifier does not continue it. -/
theorem StageText.head_equal {key : CString} (spelled : StageText fits (.equal key) added text)
    (s : List UInt8) : ∃ c rest, text ++ s = c :: rest ∧ isIdentChar c = false := by
  cases spelled with
  | equal a tail =>
      cases a with
      | zero => exact ⟨61, _, rfl, rfl⟩
      | succ a => exact ⟨32, _, rfl, rfl⟩

theorem strlen_value {raw : List UInt8} (nulFree : 0 ∉ raw) (s : List UInt8) (ends : 0 ∈ s) :
    ∃ length, strlen (34 :: (raw ++ 34 :: s)) = .ok length ∧ raw.length ≤ length := by
  obtain ⟨front, beyond, rfl, clean⟩ := List.eq_append_cons_of_mem ends
  have measured := strlen_run (34 :: (raw ++ 34 :: front)) beyond (by simp [nulFree, clean])
  exact ⟨(34 :: (raw ++ 34 :: front)).length, by simpa using measured, by simp; omega⟩

/-- A quoted string in front of a NUL byte is a token. -/
theorem scan_value (count : Nat) {raw : List UInt8} {value : CString}
    (unescapes : Unescapes raw value.bytes) (nulFree : 0 ∉ raw) (small : IsInt (raw.length + 2)) (s : List UInt8)
    (ends : 0 ∈ s) : scan (blanks count ++ 34 :: (raw ++ 34 :: s)) = .ok (.quotedString value, s) := by
  obtain ⟨length, measured, room⟩ := strlen_value nulFree s ends
  have short := unescapes.length_le
  have run := scan_quoted unescapes s length measured (by omega) small
  rw [CString.at_terminated value []] at run
  rw [scan_blanks, run]

theorem scan_value_long (count : Nat) {raw bytes : List UInt8} (unescapes : Unescapes raw bytes) (nulFree : 0 ∉ raw)
    (large : ¬ IsInt (raw.length + 2)) (s : List UInt8) (ends : 0 ∈ s) :
    scan (blanks count ++ 34 :: (raw ++ 34 :: s)) = .error (.abort .memory) := by
  obtain ⟨length, measured, room⟩ := strlen_value nulFree s ends
  have short := unescapes.length_le
  rw [scan_blanks, scan_quoted_long unescapes s length measured (by omega) large]

theorem scan_char {c : UInt8} {token : HumanToken} (spelled : charToken c = some token) (count : Nat)
    (rest s : List UInt8) : scan (blanks count ++ c :: rest ++ s) = .ok (token, rest ++ s) := by
  rw [List.append_assoc, scan_blanks]
  exact charToken_run c (rest ++ s) token spelled

theorem labelStages_read {turns : Nat} {lfm next : LFM.Growing} {token : HumanToken} {rest : List UInt8}
    {after : LabelStage} (read : scan s = .ok (token, rest))
    (moved : labelToken lfm stage token = .ok (next, some after)) :
    labelStages (turns + 1) stage lfm s = labelStages turns after next rest := by
  rw [labelStages, read, Except.ok_bind]
  simp only [moved, Except.ok_bind]

theorem labelStages_ends {turns : Nat} {lfm next : LFM.Growing} {token : HumanToken} {rest : List UInt8}
    (read : scan s = .ok (token, rest)) (closed : labelToken lfm stage token = .ok (next, none)) :
    labelStages (turns + 1) stage lfm s = .ok (next, rest) := by
  rw [labelStages, read, Except.ok_bind]
  simp only [closed, Except.ok_bind]
  rfl

theorem labelStages_fails {turns : Nat} {lfm : LFM.Growing} {token : HumanToken} {rest : List UInt8}
    {failure : Failure} (read : scan s = .ok (token, rest))
    (failed : labelToken lfm stage token = .error failure) :
    labelStages (turns + 1) stage lfm s = .error failure := by
  rw [labelStages, read, Except.ok_bind]
  simp only [failed]
  rfl

theorem labelStages_stops {turns : Nat} {lfm : LFM.Growing} {failure : Failure}
    (read : scan s = .error failure) : labelStages (turns + 1) stage lfm s = .error failure := by
  rw [labelStages, read]
  rfl

theorem labelToken_value {key value : CString} (room : labels.length < 64) :
    labelToken (growing name labels) (.value key) (.quotedString value) =
      .ok (growing name (labels ++ [⟨key, value⟩]), some .comma) := by
  rw [labelToken, lfmAddLabel_growing name key value labels room]
  rfl

theorem labelToken_full {key value : CString} (full : 64 ≤ labels.length) :
    labelToken (growing name labels) (.value key) (.quotedString value) = .error (.abort .memory) := by
  rw [labelToken, lfmAddLabel_full name key value labels full]
  rfl

/-- A text of the grammar is read if its labels are few and its tokens have lengths of the type `int`, or it stops the
process. -/
def ReadsOrStops {α : Type} (fits : Nat → Prop) (few short : Prop) (result : Except Failure α) (value : α) : Prop :=
  few ∧ short ∧ result = .ok value ∨ result = .error (.abort .memory) ∧ ¬ (few ∧ ∀ n, fits n → IsInt n)

theorem ReadsOrStops.run {α : Type} {few short : Prop} {result : Except Failure α} {value : α}
    (reads : ReadsOrStops fits few short result value) (room : few) (small : ∀ n, fits n → IsInt n) :
    result = .ok value := by
  rcases reads with ⟨-, -, run⟩ | ⟨-, never⟩
  · exact run
  · exact absurd ⟨room, small⟩ never

/-- A step in front keeps what the rest of the text does. -/
theorem ReadsOrStops.step {α : Type} {few few' short short' : Prop} {result result' : Except Failure α} {value : α}
    (reads : ReadsOrStops fits few short result value) (same : few ↔ few') (longer : short → short')
    (step : result' = result) : ReadsOrStops fits few' short' result' value := by
  rw [step]
  rcases reads with ⟨room, small, run⟩ | ⟨run, never⟩
  · exact Or.inl ⟨same.mp room, longer small, run⟩
  · exact Or.inr ⟨run, fun both => never ⟨same.mpr both.1, both.2⟩⟩

/-- The loop reads the labels of a text, or stops at the first that has no room. -/
theorem labelStages_text (spelled : StageText fits stage added text) (nulFree : 0 ∉ text) (ends : 0 ∈ s) :
    ∀ (labels : List KeyValue) (turns : Nat), text.length ≤ turns → labels.length ≤ 64 →
      ReadsOrStops fits (labels.length + added.length ≤ 64) (StageText IsInt stage added text)
        (labelStages turns stage (growing name labels) (text ++ s)) (growing name (labels ++ added), s) := by
  induction spelled with
  | close a =>
      intro labels turns enough room
      obtain ⟨turns, rfl⟩ : ∃ fewer, turns = fewer + 1 := ⟨turns - 1, by simp at enough; omega⟩
      refine Or.inl ⟨by simpa using room, .close a, ?_⟩
      rw [labelStages_ends (scan_char rfl a [] s) rfl, List.append_nil, List.nil_append]
  | @key a key added rest ident keyFits tail ih =>
      intro labels turns enough room
      simp only [List.mem_append, not_or] at nulFree
      obtain ⟨c, behind, ahead, outside⟩ := tail.head_equal s
      have long := List.length_pos_iff.mpr ident.1
      obtain ⟨turns, rfl⟩ : ∃ fewer, turns = fewer + 1 := ⟨turns - 1, by simp at enough; omega⟩
      have start : scan (blanks a ++ key.bytes ++ rest ++ s) = scan (key.bytes ++ (rest ++ s)) := by
        rw [List.append_assoc, List.append_assoc, scan_blanks]
      rw [ahead] at start
      by_cases small : IsInt (key.bytes.length + 1)
      · rw [scan_identifier key ident small c behind outside, ← ahead] at start
        exact (ih nulFree.2 labels turns (by simp at enough; omega) room).step Iff.rfl (.key a ident small)
          (labelStages_read start rfl)
      · rw [scan_identifier_long key ident small c behind outside] at start
        exact Or.inr ⟨labelStages_stops start, fun both => small (both.2 _ keyFits)⟩
  | @equal a key added rest tail ih =>
      intro labels turns enough room
      simp only [List.mem_append, List.mem_cons, not_or] at nulFree
      obtain ⟨turns, rfl⟩ : ∃ fewer, turns = fewer + 1 := ⟨turns - 1, by simp at enough; omega⟩
      exact (ih nulFree.2.2 labels turns (by simp at enough; omega) room).step Iff.rfl (.equal a)
        (labelStages_read (scan_char rfl a rest s) rfl)
  | @value a key value added raw rest unescapes valueFits tail ih =>
      intro labels turns enough room
      simp only [List.mem_append, List.mem_cons, not_or] at nulFree
      obtain ⟨turns, rfl⟩ : ∃ fewer, turns = fewer + 1 := ⟨turns - 1, by simp at enough; omega⟩
      have behind : 0 ∈ rest ++ s := List.mem_append_right rest ends
      rw [show blanks a ++ 34 :: (raw ++ 34 :: rest) ++ s = blanks a ++ 34 :: (raw ++ 34 :: (rest ++ s)) by simp]
      by_cases small : IsInt (raw.length + 2)
      · have read := scan_value a unescapes nulFree.2.2.1 small (rest ++ s) behind
        by_cases space : labels.length < 64
        · have later := ih nulFree.2.2.2.2 (labels ++ [⟨key, value⟩]) turns (by simp at enough; omega) (by simp; omega)
          rw [List.append_assoc, List.singleton_append] at later
          exact later.step (by simp; omega) (.value a unescapes small) (labelStages_read read (labelToken_value space))
        · exact Or.inr ⟨labelStages_fails read (labelToken_full (Nat.not_lt.mp space)), fun both => by
            have few := both.1
            simp at few
            omega⟩
      · exact Or.inr ⟨labelStages_stops (scan_value_long a unescapes nulFree.2.2.1 small (rest ++ s) behind),
          fun both => small (both.2 _ valueFits)⟩
  | done a =>
      intro labels turns enough room
      obtain ⟨turns, rfl⟩ : ∃ fewer, turns = fewer + 1 := ⟨turns - 1, by simp at enough; omega⟩
      refine Or.inl ⟨by simpa using room, .done a, ?_⟩
      rw [labelStages_ends (scan_char rfl a [] s) rfl, List.append_nil, List.nil_append]
  | @comma a added rest tail ih =>
      intro labels turns enough room
      simp only [List.mem_append, List.mem_cons, not_or] at nulFree
      obtain ⟨turns, rfl⟩ : ∃ fewer, turns = fewer + 1 := ⟨turns - 1, by simp at enough; omega⟩
      exact (ih nulFree.2.2 labels turns (by simp at enough; omega) room).step Iff.rfl (.comma a)
        (labelStages_read (scan_char rfl a rest s) rfl)

end Reading

end Menoetius
