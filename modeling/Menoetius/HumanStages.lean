import Menoetius.HumanGrammar

/-
This file follows the label loop over texts that the grammar does not cover.
-/

namespace Menoetius

section Cases
variable {stage : LabelStage} {name : CString} {labels : List KeyValue}

def LabelStage.isValue : LabelStage → Bool
  | .value _ => true
  | _ => false

/-- The loop has read the front of a text with some pairs and expects a token, perhaps a value. -/
inductive StagePoint : LabelStage → List UInt8 → Nat → Bool → Prop
  | here (stage : LabelStage) : StagePoint stage [] 0 stage.isValue
  | key (a : Nat) {key : CString} {front : List UInt8} {pairs : Nat} {value : Bool}
      (ident : IdentText key.bytes) (small : IsInt (key.bytes.length + 1))
      (tail : StagePoint (.equal key) front pairs value) :
      StagePoint .key (blanks a ++ key.bytes ++ front) pairs value
  | equal (a : Nat) {key : CString} {front : List UInt8} {pairs : Nat} {value : Bool}
      (tail : StagePoint (.value key) front pairs value) :
      StagePoint (.equal key) (blanks a ++ 61 :: front) pairs value
  | value (a : Nat) {key text : CString} {raw front : List UInt8} {pairs : Nat} {value : Bool}
      (unescapes : Unescapes raw text.bytes) (small : IsInt (raw.length + 2))
      (tail : StagePoint .comma front pairs value) :
      StagePoint (.value key) (blanks a ++ 34 :: (raw ++ 34 :: front)) (pairs + 1) value
  | comma (a : Nat) {front : List UInt8} {pairs : Nat} {value : Bool}
      (tail : StagePoint .key front pairs value) : StagePoint .comma (blanks a ++ 44 :: front) pairs value

theorem labelToken_fails {token : HumanToken} {failure : Failure}
    (failed : labelToken (growing name labels) stage token = .error failure) : failure.IsOwn := by
  unfold labelToken at failed
  split at failed
  case h_4 key value =>
    by_cases room : labels.length < 64
    · simp [lfmAddLabel_growing name key value labels room, pure, Except.pure] at failed
    · rw [lfmAddLabel_full name key value labels (Nat.not_lt.mp room)] at failed
      cases failed
      exact Or.inr rfl
  case h_7 =>
    cases failed
    exact Or.inl rfl
  all_goals cases failed

/-- Only a closing brace ends the loop. -/
theorem labelToken_closes {token : HumanToken} {next : LFM.Growing}
    (closed : labelToken (growing name labels) stage token = .ok (next, none)) :
    next = growing name labels ∧ token = .closeBrace ∧ ∀ a, StageText IsInt stage [] (blanks a ++ [125]) := by
  unfold labelToken at closed
  split at closed
  case h_1 =>
    cases closed
    exact ⟨rfl, rfl, StageText.close⟩
  case h_4 key value =>
    by_cases room : labels.length < 64
    · simp [lfmAddLabel_growing name key value labels room, pure, Except.pure] at closed
    · simp [lfmAddLabel_full name key value labels (Nat.not_lt.mp room)] at closed
  case h_5 =>
    cases closed
    exact ⟨rfl, rfl, StageText.done⟩
  all_goals cases closed

/-- A token in front of a later stage extends its texts and its points. -/
structure Extends (stage after : LabelStage) (added : List KeyValue) (text : List UInt8) : Prop where
  texts : ∀ a labels tail, StageText IsInt after labels tail →
    StageText IsInt stage (added ++ labels) (blanks a ++ text ++ tail)
  points : ∀ a front pairs value, StagePoint after front pairs value →
    StagePoint stage (blanks a ++ text ++ front) (added.length + pairs) value

theorem labelToken_moves {token : HumanToken} {next : LFM.Growing} {after : LabelStage}
    {text : List UInt8} (spelled : TokenText token text) (room : labels.length ≤ 64)
    (moved : labelToken (growing name labels) stage token = .ok (next, some after)) :
    ∃ added, next = growing name (labels ++ added) ∧ labels.length + added.length ≤ 64 ∧
      Extends stage after added text := by
  unfold labelToken at moved
  split at moved
  case h_2 key =>
    cases moved
    obtain ⟨rfl, ident, small⟩ := spelled
    refine ⟨[], by rw [List.append_nil], room, fun a _ _ tail => ?_, fun a _ pairs _ tail => ?_⟩
    · exact .key a ident small tail
    · rw [List.length_nil, Nat.zero_add]
      exact .key a ident small tail
  case h_3 key =>
    cases moved
    obtain rfl : text = [61] := spelled
    refine ⟨[], by rw [List.append_nil], room, fun a _ _ tail => ?_, fun a _ pairs _ tail => ?_⟩
    · simpa using StageText.equal a tail
    · simpa using StagePoint.equal a tail
  case h_4 key value =>
    obtain ⟨raw, rfl, unescapes, small⟩ := spelled
    by_cases space : labels.length < 64
    · rw [lfmAddLabel_growing name key value labels space] at moved
      cases moved
      refine ⟨[⟨key, value⟩], rfl, space, fun a _ _ tail => ?_, fun a _ pairs _ tail => ?_⟩
      · simpa using @StageText.value _ a key value _ _ _ unescapes small tail
      · simpa [Nat.add_comm] using @StagePoint.value a key value _ _ _ _ unescapes small tail
    · simp [lfmAddLabel_full name key value labels (Nat.not_lt.mp space)] at moved
  case h_6 =>
    cases moved
    obtain rfl : text = [44] := spelled
    refine ⟨[], by rw [List.append_nil], room, fun a _ _ tail => ?_, fun a _ pairs _ tail => ?_⟩
    · simpa using StageText.comma a tail
    · simpa using StagePoint.comma a tail
  all_goals cases moved

/-- What the loop does with a text from a stage on, whatever lies behind its NUL byte. -/
inductive StageRuns (stage : LabelStage) (name : CString) (labels : List KeyValue) (t : List UInt8) : Prop
  | reads (added : List KeyValue) (text rest : List UInt8) (whole : t = text ++ rest)
      (spelled : StageText IsInt stage added text) (room : labels.length + added.length ≤ 64)
      (run : ∀ turns beyond, t.length < turns →
        labelStages turns stage (growing name labels) (t ++ 0 :: beyond) =
          .ok (growing name (labels ++ added), rest ++ 0 :: beyond))
  | fails (failure : Failure) (own : failure.IsOwn)
      (run : ∀ turns beyond, t.length < turns →
        labelStages turns stage (growing name labels) (t ++ 0 :: beyond) = .error failure)
  | overruns (front : List UInt8) (pairs : Nat) (value : Bool) (a : Nat) (raw bytes : List UInt8)
      (whole : t = front ++ (blanks a ++ 34 :: (raw ++ [92]))) (point : StagePoint stage front pairs value)
      (unescapes : Unescapes raw bytes) (small : IsInt (raw.length + 3)) (room : labels.length + pairs ≤ 64)
      (guarded : value = true ∧ labels.length + pairs < 64 ∧ IsInt (raw.length + 4) ∨ ∀ turns beyond result,
        labelStages turns stage (growing name labels) (t ++ 0 :: beyond) ≠ .ok result)

/-- A token in front keeps the case of the rest. -/
theorem StageRuns.extend {after : LabelStage} {added : List KeyValue} {text rest t : List UInt8}
    {token : HumanToken} {count : Nat} (whole : t = blanks count ++ text ++ rest) (nonempty : text ≠ [])
    (read : ∀ beyond, scan (t ++ 0 :: beyond) = .ok (token, rest ++ 0 :: beyond))
    (moved : labelToken (growing name labels) stage token = .ok (growing name (labels ++ added), some after))
    (extend : Extends stage after added text) (runs : StageRuns after name (labels ++ added) rest) :
    StageRuns stage name labels t := by
  have shorter : rest.length < t.length := by
    have long := List.length_pos_iff.mpr nonempty
    rw [whole, List.length_append, List.length_append]
    omega
  have step : ∀ turns beyond, t.length < turns → ∃ fewer, rest.length < fewer ∧
      labelStages turns stage (growing name labels) (t ++ 0 :: beyond) =
        labelStages fewer after (growing name (labels ++ added)) (rest ++ 0 :: beyond) := by
    intro turns beyond enough
    obtain ⟨fewer, rfl⟩ := Nat.exists_eq_succ_of_ne_zero (Nat.ne_of_gt (Nat.zero_lt_of_lt enough))
    exact ⟨fewer, by omega, labelStages_read (read beyond) moved⟩
  cases runs with
  | reads more tail behind split spelled room run =>
      refine .reads (added ++ more) (blanks count ++ text ++ tail) behind
        (by rw [whole, split, List.append_assoc, List.append_assoc, List.append_assoc])
        (extend.texts count more tail spelled) (by simp at room ⊢; omega) fun turns beyond enough => ?_
      obtain ⟨fewer, left, same⟩ := step turns beyond enough
      rw [same, run fewer beyond left, List.append_assoc]
  | fails failure own run =>
      refine .fails failure own fun turns beyond enough => ?_
      obtain ⟨fewer, left, same⟩ := step turns beyond enough
      rw [same, run fewer beyond left]
  | overruns front pairs value a raw bytes split point unescapes small room guarded =>
      rw [List.length_append] at room guarded
      refine .overruns (blanks count ++ text ++ front) (added.length + pairs) value a raw bytes
        (by rw [whole, split, List.append_assoc, List.append_assoc, List.append_assoc])
        (extend.points count front pairs value point) unescapes small (by omega) (guarded.imp (fun all => ?_) ?_)
      · exact ⟨all.1, by omega, all.2.2⟩
      · intro never turns beyond result run
        cases turns with
        | zero => cases run
        | succ turns => exact never turns beyond result ((labelStages_read (read beyond) moved).symm.trans run)

theorem TokenText.nonempty {token : HumanToken} {text : List UInt8} (spelled : TokenText token text) :
    text ≠ [] := by
  cases token with
  | eof => exact spelled.elim
  | identifier lit => exact spelled.1 ▸ spelled.2.1.1
  | quotedString lit =>
      obtain ⟨raw, rfl, -⟩ := spelled
      simp
  | int lit => exact spelled.1 ▸ spelled.2.2.1
  | float lit => exact spelled.1 ▸ spelled.2.2.1
  | timestamp lit => exact spelled.1 ▸ spelled.2.2.1
  | _ =>
      rw [show text = _ from spelled]
      simp

/-- At a quoted string without an end, only a stage that expects a value goes on. -/
theorem labelStages_overrun {raw bytes : List UInt8} (unescapes : Unescapes raw bytes) (nulFree : 0 ∉ raw) (a : Nat)
    (beyond : List UInt8) (turns : Nat) (result : LFM.Growing × List UInt8)
    (guarded : ¬ (stage.isValue = true ∧ labels.length < 64 ∧ IsInt (raw.length + 4))) :
    labelStages turns stage (growing name labels) (blanks a ++ 34 :: (raw ++ 92 :: 0 :: beyond)) ≠ .ok result := by
  intro run
  cases turns with
  | zero => cases run
  | succ turns =>
      cases read : scan (blanks a ++ 34 :: (raw ++ 92 :: 0 :: beyond)) with
      | error failure =>
          rw [labelStages_stops read] at run
          cases run
      | ok first =>
          obtain ⟨token, rest⟩ := first
          obtain ⟨lit, rfl⟩ := scan_quote_token read
          cases stage with
          | value key =>
              rw [scan_blanks] at read
              have last : IsInt (raw.length + 4) := by
                by_contra large
                exact scan_overrun_last unescapes nulFree large beyond _ read
              rw [← scan_blanks a] at read
              have full : 64 ≤ labels.length := Nat.not_lt.mp fun room => guarded ⟨rfl, room, last⟩
              rw [labelStages_fails read (labelToken_full full)] at run
              cases run
          | _ =>
              rw [labelStages_fails read rfl] at run
              cases run

/-- Every text has exactly these cases. -/
theorem stageRuns (size : Nat) : ∀ (t : List UInt8) (stage : LabelStage) (labels : List KeyValue),
    t.length < size → 0 ∉ t → labels.length ≤ 64 → StageRuns stage name labels t := by
  induction size with
  | zero => exact fun t stage labels small => absurd small (Nat.not_lt_zero _)
  | succ size ih =>
      intro t stage labels small nulFree room
      have some : ∀ turns, t.length < turns → ∃ fewer, turns = fewer + 1 := fun turns enough =>
        Nat.exists_eq_succ_of_ne_zero (Nat.ne_of_gt (Nat.zero_lt_of_lt enough))
      cases scans t nulFree with
      | ended count whole run =>
          refine .fails _ (Or.inl rfl) fun turns beyond enough => ?_
          obtain ⟨turns, rfl⟩ := some turns enough
          exact labelStages_fails (run beyond) (by cases stage <;> rfl)
      | refuses failure own run =>
          refine .fails failure own fun turns beyond enough => ?_
          obtain ⟨turns, rfl⟩ := some turns enough
          exact labelStages_stops (run beyond)
      | overruns count raw bytes whole unescapes small =>
          have split : t = [] ++ (blanks count ++ 34 :: (raw ++ [92])) := by rw [whole]; simp
          have clean : 0 ∉ raw := fun member => nulFree (by rw [whole]; simp [member])
          refine .overruns [] 0 stage.isValue count raw bytes split (.here stage) unescapes small room ?_
          by_cases guarded : stage.isValue = true ∧ labels.length < 64 ∧ IsInt (raw.length + 4)
          · exact Or.inl guarded
          · refine Or.inr fun turns beyond result => ?_
            rw [split, List.nil_append, List.append_assoc, List.cons_append, List.append_assoc, List.singleton_append]
            exact labelStages_overrun unescapes clean count beyond turns result guarded
      | reads count token text rest whole spelled bounds run =>
          cases moved : labelToken (growing name labels) stage token with
          | error failure =>
              refine .fails failure (labelToken_fails moved) fun turns beyond enough => ?_
              obtain ⟨turns, rfl⟩ := some turns enough
              exact labelStages_fails (run beyond) moved
          | ok result =>
              obtain ⟨next, after⟩ := result
              cases after with
              | none =>
                  obtain ⟨rfl, rfl, closing⟩ := labelToken_closes moved
                  obtain rfl : text = [125] := spelled
                  refine .reads [] (blanks count ++ [125]) rest whole (closing count) room
                    fun turns beyond enough => ?_
                  obtain ⟨turns, rfl⟩ := some turns enough
                  rw [labelStages_ends (run beyond) moved, List.append_nil]
              | some after =>
                  obtain ⟨added, rfl, space, extend⟩ := labelToken_moves spelled room moved
                  have shorter : rest.length < size := by
                    have long := List.length_pos_iff.mpr spelled.nonempty
                    rw [whole, List.length_append, List.length_append] at small
                    omega
                  have clean : 0 ∉ rest := fun member => nulFree (whole ▸ List.mem_append_right _ member)
                  exact .extend whole spelled.nonempty run moved extend
                    (ih rest after (labels ++ added) shorter clean (by rw [List.length_append]; exact space))

/-- The loop reaches the point behind the front of a text. -/
theorem labelStages_reach {front s : List UInt8} {pairs : Nat} {value : Bool}
    (point : StagePoint stage front pairs value) (clean : 0 ∉ front) (ends : 0 ∈ s)
    (bounded : ∀ c ∈ s.head?, isIdentChar c = false) :
    ∀ (labels : List KeyValue) (turns : Nat), labels.length + pairs ≤ 64 → front.length ≤ turns →
      ∃ fewer later reached, turns ≤ fewer + front.length ∧ later.isValue = value ∧
        reached.length = labels.length + pairs ∧
        labelStages turns stage (growing name labels) (front ++ s) =
          labelStages fewer later (growing name reached) s := by
  induction point with
  | here stage =>
      exact fun labels turns _ _ => ⟨turns, stage, labels, Nat.le_refl _, rfl, rfl, rfl⟩
  | @key a key front pairs value ident small tail ih =>
      intro labels turns room enough
      simp only [List.mem_append, not_or] at clean
      have long := List.length_pos_iff.mpr ident.1
      obtain ⟨turns, rfl⟩ : ∃ fewer, turns = fewer + 1 := ⟨turns - 1, by simp at enough; omega⟩
      obtain ⟨c, behind, ahead, outside⟩ : ∃ c rest, front ++ s = c :: rest ∧ isIdentChar c = false := by
        cases tail with
        | here _ =>
            obtain ⟨c, rest, whole⟩ := List.exists_cons_of_ne_nil (List.ne_nil_of_mem ends)
            exact ⟨c, rest, whole, bounded c (by rw [whole]; rfl)⟩
        | equal a tail =>
            cases a with
            | zero => exact ⟨61, _, rfl, rfl⟩
            | succ a => exact ⟨32, _, rfl, rfl⟩
      have read : scan (blanks a ++ key.bytes ++ front ++ s) = .ok (.identifier key, front ++ s) := by
        rw [List.append_assoc, List.append_assoc, scan_blanks, ahead]
        exact scan_identifier key ident small c behind outside
      obtain ⟨fewer, later, reached, left, kind, count, run⟩ :=
        ih clean.2 labels turns room (by simp at enough; omega)
      exact ⟨fewer, later, reached, by simp; omega, kind, count, (labelStages_read read rfl).trans run⟩
  | @equal a key front pairs value tail ih =>
      intro labels turns room enough
      simp only [List.mem_append, List.mem_cons, not_or] at clean
      obtain ⟨turns, rfl⟩ : ∃ fewer, turns = fewer + 1 := ⟨turns - 1, by simp at enough; omega⟩
      obtain ⟨fewer, later, reached, left, kind, count, run⟩ :=
        ih clean.2.2 labels turns room (by simp at enough; omega)
      exact ⟨fewer, later, reached, by simp; omega, kind, count,
        (labelStages_read (scan_char rfl a front s) rfl).trans run⟩
  | @value a key text raw front pairs value unescapes small tail ih =>
      intro labels turns room enough
      simp only [List.mem_append, List.mem_cons, not_or] at clean
      obtain ⟨turns, rfl⟩ : ∃ fewer, turns = fewer + 1 := ⟨turns - 1, by simp at enough; omega⟩
      have read := scan_value a unescapes clean.2.2.1 small (front ++ s) (List.mem_append_right front ends)
      obtain ⟨fewer, later, reached, left, kind, count, run⟩ :=
        ih clean.2.2.2.2 (labels ++ [⟨key, text⟩]) turns (by simp; omega) (by simp at enough; omega)
      refine ⟨fewer, later, reached, by simp; omega, kind, by simp at count; omega, ?_⟩
      rw [show blanks a ++ 34 :: (raw ++ 34 :: front) ++ s = blanks a ++ 34 :: (raw ++ 34 :: (front ++ s)) by simp,
        labelStages_read read (labelToken_value (by omega)), run]
  | @comma a front pairs value tail ih =>
      intro labels turns room enough
      simp only [List.mem_append, List.mem_cons, not_or] at clean
      obtain ⟨turns, rfl⟩ : ∃ fewer, turns = fewer + 1 := ⟨turns - 1, by simp at enough; omega⟩
      obtain ⟨fewer, later, reached, left, kind, count, run⟩ :=
        ih clean.2.2 labels turns room (by simp at enough; omega)
      exact ⟨fewer, later, reached, by simp; omega, kind, count,
        (labelStages_read (scan_char rfl a front s) rfl).trans run⟩

theorem Unescapes.append {raw bytes raw' bytes' : List UInt8} (first : Unescapes raw bytes)
    (second : Unescapes raw' bytes') : Unescapes (raw ++ raw') (bytes ++ bytes') := by
  induction first with
  | nil => exact second
  | plain nonzero noQuote noEscape _ ih => exact .plain nonzero noQuote noEscape ih
  | escaped _ ih => exact .escaped ih

/-- With a quote behind its NUL byte, the unfinished string becomes a value. -/
theorem scan_beyond {raw bytes : List UInt8} (unescapes : Unescapes raw bytes) (nulFree : 0 ∉ raw)
    (small : IsInt (raw.length + 4)) (a : Nat) (s : List UInt8) :
    ∃ lit, scan (blanks a ++ 34 :: (raw ++ [92]) ++ 0 :: 34 :: s) = .ok (.quotedString lit, s) := by
  have measured := strlen_run (34 :: (raw ++ [92])) (34 :: s) (by simpa using nulFree)
  have short := unescapes.length_le
  have longer : Unescapes (raw ++ [92, 0]) (bytes ++ [0]) := unescapes.append (.escaped .nil)
  have run := scan_quoted longer s _ (by simpa using measured) (by simp; omega) (by simpa using small)
  refine ⟨CString.at (bytes ++ [0] ++ [0]), ?_⟩
  rw [List.append_assoc, scan_blanks, ← run]
  simp

end Cases

end Menoetius
