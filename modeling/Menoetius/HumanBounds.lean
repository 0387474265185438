import Menoetius.HumanParse

/-
This file says when the human parsers read behind the NUL byte of their string.
-/

namespace Menoetius

/-- The run does not look behind the NUL byte of a text. Memory that ends there is enough for it. -/
def StaysInString {α : Type} (run : List UInt8 → Except Failure α) (s : CString) : Prop :=
  (∀ beyond, run (s.bytes ++ 0 :: beyond) = run (s.bytes ++ [0])) ∧
    run (s.bytes ++ [0]) ≠ .error (.abort .stringEnd)

/-- The parser of the value has read a part of an argument and expects a token. -/
inductive ValuePoint : List UInt8 → Prop
  | number : ValuePoint []
  | next (a : Nat) {token : HumanToken} {lit : CString} (kind : token = .int lit ∨ token = .float lit)
      (number : NumberText token lit) : ValuePoint (blanks a ++ lit.bytes ++ [32])
  | time (a b : Nat) {token : HumanToken} {lit : CString} (kind : token = .int lit ∨ token = .float lit)
      (number : NumberText token lit) : ValuePoint (blanks a ++ lit.bytes ++ (blanks b ++ [64]))

/-- A parser has read the front of an argument and expects a token. -/
inductive PutPoint : List UInt8 → Prop
  | lfm {front : List UInt8} {pairs : Nat} {value : Bool} (point : HumanPoint front pairs value)
      (room : pairs ≤ 64) : PutPoint front
  | equal {name : CString} {labels : List KeyValue} {text : List UInt8}
      (spelled : BracesText IsInt name labels text) (room : labels.length ≤ 64) : PutPoint text
  | value (a : Nat) {name : CString} {labels : List KeyValue} {text point : List UInt8}
      (spelled : BracesText IsInt name labels text) (room : labels.length ≤ 64) (inner : ValuePoint point) :
      PutPoint (text ++ (blanks a ++ 61 :: point))

/-- Where a token is expected, the string has a quote, no closing one, and a backslash at its end. The places behind the
quote are `int`s. -/
def UnfinishedEscape (s : CString) : Prop :=
  ∃ front a raw bytes, PutPoint front ∧ Unescapes raw bytes ∧ IsInt (raw.length + 3) ∧
    s.bytes = front ++ (blanks a ++ 34 :: (raw ++ [92]))

/-- The string is a lone name that the counters have room for. -/
def LoneName (s : CString) : Prop :=
  ∃ a b name, IdentText (CString.bytes name) ∧ IsInt (name.bytes.length + 1) ∧ s.bytes = blanks a ++ name.bytes ++ blanks b

/-- One result holds for all memory behind a text. -/
def Local {α : Type} (run : List UInt8 → Except Failure α) (t : List UInt8) : Prop :=
  ∃ result, (∀ beyond, run (t ++ 0 :: beyond) = result) ∧ result ≠ .error (.abort .stringEnd)

theorem Local.stays {α : Type} {run : List UInt8 → Except Failure α} {s : CString}
    (near : Local run s.bytes) : StaysInString run s := by
  obtain ⟨result, same, inside⟩ := near
  exact ⟨fun beyond => (same beyond).trans (same []).symm, (same []).symm ▸ inside⟩

theorem Failure.IsOwn.ne_stringEnd {α : Type} {failure : Failure} (own : failure.IsOwn) :
    (Except.error failure : Except Failure α) ≠ .error (.abort .stringEnd) := by
  rcases own with rfl | rfl <;> simp

section Put
variable {Tm : Type} (strtod : CString → Word) (strptime : CString → Option Tm) (timegm : Tm → Int)
  (t : Int) (validT : Bool)

theorem parseHumanLfmAndValue_of_ok {s rest : List UInt8} {lfm : LFM}
    (run : parseHumanLfmHelper s = .ok (lfm, rest)) :
    parseHumanLfmAndValue strtod strptime timegm t validT s = (do
      let (token, s) ← scan rest
      if token ≠ .equal then throw (.code (.res 1))
      else parseHumanValue strtod strptime timegm t validT lfm s) := by
  rw [parseHumanLfmAndValue, run]
  rfl

theorem parseHumanLfmAndValue_of_error {s : List UInt8} {failure : Failure}
    (run : parseHumanLfmHelper s = .error failure) :
    parseHumanLfmAndValue strtod strptime timegm t validT s = .error failure := by
  rw [parseHumanLfmAndValue, run]
  rfl

theorem parseHumanValue_number {s rest : List UInt8} {token : HumanToken} {lit : CString}
    (kind : token = .int lit ∨ token = .float lit) (read : scan s = .ok (token, rest)) (lfm : LFM) :
    parseHumanValue strtod strptime timegm t validT lfm s =
      parseHumanBehind strptime timegm t validT lfm (strtod lit) rest := by
  rw [parseHumanValue, read]
  rcases kind with rfl | rfl <;> rfl

/-- The parser of the value reaches each of its points. -/
theorem parseHumanValue_stops {point : List UInt8} (reached : ValuePoint point) (lfm : LFM)
    (s : List UInt8) (failure : Failure) (stops : scan s = .error failure) :
    parseHumanValue strtod strptime timegm t validT lfm (point ++ s) = .error failure := by
  cases reached with
  | number =>
      rw [List.nil_append, parseHumanValue, stops]
      rfl
  | @next a token lit kind number =>
      have read : scan (blanks a ++ lit.bytes ++ [32] ++ s) = .ok (token, 32 :: s) := by
        rw [List.append_assoc _ [32]]
        exact scan_numberText number a 32 s rfl
      rw [parseHumanValue_number strtod strptime timegm t validT kind read, parseHumanBehind,
        show scan (32 :: s) = .error failure from (scan_blanks 1 s).trans stops]
      rfl
  | @time a b token lit kind number =>
      have read : scan (blanks a ++ lit.bytes ++ (blanks b ++ [64]) ++ s) =
          .ok (token, blanks b ++ 64 :: s) := by
        rw [List.append_assoc _ (blanks b ++ [64]), List.append_assoc (blanks b)]
        cases b with
        | zero => exact scan_numberText number a 64 s rfl
        | succ b => exact scan_numberText number a 32 (blanks b ++ 64 :: s) rfl
      have sign : scan (blanks b ++ 64 :: s) = .ok (.atSign, s) := by
        rw [scan_blanks]
        exact charToken_run 64 s .atSign rfl
      rw [parseHumanValue_number strtod strptime timegm t validT kind read, parseHumanBehind, sign]
      change parseHumanTime strptime timegm lfm (strtod lit) s = .error failure
      rw [parseHumanTime, stops]
      rfl

/-- A refusal that does not depend on the memory behind the text is local. -/
theorem local_of_own {α : Type} {run : List UInt8 → Except Failure α} {s : List UInt8} {failure : Failure}
    (own : failure.IsOwn) (refuses : ∀ beyond, run (s ++ 0 :: beyond) = .error failure) : Local run s :=
  ⟨_, refuses, own.ne_stringEnd⟩

theorem local_of_refusal {α : Type} {run : List UInt8 → Except Failure α} {s : List UInt8}
    (refuses : ∀ beyond, run (s ++ 0 :: beyond) = .error (.code (.res 1))) : Local run s :=
  local_of_own (Or.inl rfl) refuses

/-- The parser of the time is local, or it reaches an unfinished string. -/
theorem parseHumanTime_cases (lfm : LFM) (y : Word) (s : List UInt8) (nulFree : 0 ∉ s) :
    Local (parseHumanTime strptime timegm lfm y) s ∨
      ∃ a raw bytes, Unescapes raw bytes ∧ IsInt (raw.length + 3) ∧ s = blanks a ++ 34 :: raw ++ [92] := by
  cases scans s nulFree with
  | ended count whole run =>
      refine Or.inl (local_of_refusal fun beyond => ?_)
      rw [parseHumanTime, run]
      rfl
  | refuses failure own run =>
      refine Or.inl (local_of_own own fun beyond => ?_)
      rw [parseHumanTime, run]
      rfl
  | overruns a raw bytes whole unescapes small => exact Or.inr ⟨a, raw, bytes, unescapes, small, whole⟩
  | reads a token text rest whole spelled bounds run =>
      cases token with
      | timestamp time =>
          cases read : strptime time with
          | none =>
              refine Or.inl (local_of_refusal fun beyond => ?_)
              rw [parseHumanTime, run, Except.ok_bind]
              simp only [parseTime, read]
              rfl
          | some tm =>
              refine Or.inl ⟨.ok ⟨lfm, y, timegm tm, true⟩, fun beyond => ?_, by simp⟩
              rw [parseHumanTime, run, Except.ok_bind]
              simp only [parseTime, read]
              rfl
      | _ =>
          refine Or.inl (local_of_refusal fun beyond => ?_)
          rw [parseHumanTime, run]
          rfl

/-- Behind the number, the parser is local, or it reaches an unfinished string. -/
theorem parseHumanBehind_cases (lfm : LFM) (y : Word) (s : List UInt8) (nulFree : 0 ∉ s) :
    Local (parseHumanBehind strptime timegm t validT lfm y) s ∨
      ∃ a raw bytes, Unescapes raw bytes ∧ IsInt (raw.length + 3) ∧ (s = blanks a ++ 34 :: raw ++ [92] ∨
        ∃ b, s = blanks b ++ 64 :: (blanks a ++ 34 :: raw ++ [92])) := by
  cases scans s nulFree with
  | ended count whole run =>
      refine Or.inl ⟨.ok ⟨lfm, y, t, validT⟩, fun beyond => ?_, by simp⟩
      rw [parseHumanBehind, run]
      rfl
  | refuses failure own run =>
      refine Or.inl (local_of_own own fun beyond => ?_)
      rw [parseHumanBehind, run]
      rfl
  | overruns a raw bytes whole unescapes small => exact Or.inr ⟨a, raw, bytes, unescapes, small, Or.inl whole⟩
  | reads b token text rest whole spelled bounds run =>
      cases token with
      | atSign =>
          obtain rfl : text = [64] := spelled
          have clean : 0 ∉ rest := fun member => nulFree (whole ▸ List.mem_append_right _ member)
          refine (parseHumanTime_cases strptime timegm lfm y rest clean).imp ?_ ?_
          · rintro ⟨result, same, inside⟩
            refine ⟨result, fun beyond => ?_, inside⟩
            rw [parseHumanBehind, run]
            exact same beyond
          · rintro ⟨a, raw, bytes, unescapes, small, rfl⟩
            exact ⟨a, raw, bytes, unescapes, small, Or.inr ⟨b, by simp [whole]⟩⟩
      | eof => exact spelled.elim
      | _ =>
          refine Or.inl (local_of_refusal fun beyond => ?_)
          rw [parseHumanBehind, run]
          rfl

/-- The parser of the value is local, or it reaches an unfinished string. -/
theorem parseHumanValue_cases (lfm : LFM) (s : List UInt8) (nulFree : 0 ∉ s) :
    Local (parseHumanValue strtod strptime timegm t validT lfm) s ∨
      ∃ point a raw bytes, ValuePoint point ∧ Unescapes raw bytes ∧ IsInt (raw.length + 3) ∧
        s = point ++ (blanks a ++ 34 :: (raw ++ [92])) := by
  cases scans s nulFree with
  | ended count whole run =>
      refine Or.inl (local_of_refusal fun beyond => ?_)
      rw [parseHumanValue, run]
      rfl
  | refuses failure own run =>
      refine Or.inl (local_of_own own fun beyond => ?_)
      rw [parseHumanValue, run]
      rfl
  | overruns a raw bytes whole unescapes small =>
      exact Or.inr ⟨[], a, raw, bytes, .number, unescapes, small, by simp [whole]⟩
  | reads a token text rest whole spelled bounds run =>
      by_cases numeric : ∃ lit, token = .int lit ∨ token = .float lit
      · obtain ⟨lit, kind⟩ := numeric
        obtain ⟨rfl, number⟩ : text = lit.bytes ∧ NumberText token lit := by
          rcases kind with rfl | rfl <;> exact spelled
        have clean : 0 ∉ rest := fun member => nulFree (whole ▸ List.mem_append_right _ member)
        refine (parseHumanBehind_cases strptime timegm t validT lfm (strtod lit) rest clean).imp ?_ ?_
        · rintro ⟨result, same, inside⟩
          exact ⟨result, fun beyond => (parseHumanValue_number strtod strptime timegm t validT kind
            (run beyond) lfm).trans (same beyond), inside⟩
        · rintro ⟨c, raw, bytes, unescapes, small, rfl | ⟨b, rfl⟩⟩
          · -- The quote does not end the number, so that a blank stands in front of it.
            obtain ⟨c, rfl⟩ : ∃ fewer, c = fewer + 1 := by
              cases c with
              | zero =>
                  have stops := bounds 34 rfl
                  rcases kind with rfl | rfl <;> simp [HumanToken.continues, endsNumber] at stops
              | succ c => exact ⟨c, rfl⟩
            exact ⟨_, c, raw, bytes, .next a kind number, unescapes, small, by
              simp [whole, blanks, List.replicate_succ]⟩
          · exact ⟨_, c, raw, bytes, .time a b kind number, unescapes, small, by simp [whole]⟩
      · refine Or.inl (local_of_refusal fun beyond => ?_)
        rw [parseHumanValue, run, Except.ok_bind]
        cases token with
        | int lit => exact absurd ⟨lit, Or.inl rfl⟩ numeric
        | float lit => exact absurd ⟨lit, Or.inr rfl⟩ numeric
        | _ => rfl

/-- The parsers reach each of their points. -/
theorem parseHumanLfmAndValue_stops {front : List UInt8} (point : PutPoint front) (clean : 0 ∉ front)
    (s : List UInt8) (ends : 0 ∈ s) (bounded : ∀ c ∈ s.head?, isIdentChar c = false) (failure : Failure)
    (stops : scan s = .error failure) :
    parseHumanLfmAndValue strtod strptime timegm t validT (front ++ s) = .error failure := by
  cases point with
  | lfm point room =>
      exact parseHumanLfmAndValue_of_error strtod strptime timegm t validT
        (parseHumanLfmHelper_stops point clean room s ends bounded failure stops)
  | equal spelled room =>
      have run := (parseHumanLfmHelper_braces spelled clean ends).run room fun _ small => small
      rw [parseHumanLfmAndValue_of_ok strtod strptime timegm t validT run, stops]
      rfl
  | @value a name labels text point spelled room inner =>
      simp only [List.mem_append, List.mem_cons, not_or] at clean
      have run := (parseHumanLfmHelper_braces spelled clean.1
        (List.mem_append_right (blanks a ++ 61 :: point) ends)).run room fun _ small => small
      rw [List.append_assoc, parseHumanLfmAndValue_of_ok strtod strptime timegm t validT run,
        scan_char rfl a point s, Except.ok_bind]
      exact parseHumanValue_stops strtod strptime timegm t validT inner _ s failure stops

/-- Every string leaves both parsers inside, or it is a lone name, or it ends with an escape. -/
theorem humanParsers_cases (s : CString) :
    (StaysInString parseHumanLfm s ∧
      StaysInString (parseHumanLfmAndValue strtod strptime timegm t validT) s) ∨
      LoneName s ∨ UnfinishedEscape s := by
  cases helperRuns s.bytes s.nulFree with
  | named a b name whole ident small run => exact Or.inr (Or.inl ⟨a, b, name, ident, small, whole⟩)
  | fails failure own run =>
      refine Or.inl ⟨Local.stays ⟨.error failure, fun beyond => ?_, own.ne_stringEnd⟩,
        Local.stays ⟨.error failure, fun beyond => ?_, own.ne_stringEnd⟩⟩
      · rw [parseHumanLfm, run]
        rfl
      · exact parseHumanLfmAndValue_of_error strtod strptime timegm t validT (run beyond)
  | overruns front pairs value a raw bytes whole point unescapes small room guarded =>
      exact Or.inr (Or.inr ⟨front, a, raw, bytes, .lfm point room, unescapes, small, whole⟩)
  | braces name labels text rest whole spelled room run =>
      have first : StaysInString parseHumanLfm s := by
        refine Local.stays ⟨.ok (sortedLfm name labels), fun beyond => ?_, by simp⟩
        rw [parseHumanLfm, run]
        rfl
      have clean : 0 ∉ rest := fun member => s.nulFree (whole ▸ List.mem_append_right _ member)
      have later := fun beyond => parseHumanLfmAndValue_of_ok strtod strptime timegm t validT (run beyond)
      cases scans rest clean with
      | ended b behind ends =>
          refine Or.inl ⟨first, Local.stays (local_of_refusal fun beyond => ?_)⟩
          rw [later, ends]
          rfl
      | refuses failure own refused =>
          refine Or.inl ⟨first, Local.stays (local_of_own own fun beyond => ?_)⟩
          rw [later, refused]
          rfl
      | overruns b raw bytes behind unescapes small =>
          exact Or.inr (Or.inr ⟨text, b, raw, bytes, .equal spelled room, unescapes, small, by simp [whole, behind]⟩)
      | reads b token text' body behind spelled' bounds' run' =>
          by_cases sign : token = .equal
          · subst sign
            obtain rfl : text' = [61] := spelled'
            have inner : 0 ∉ body := fun member => clean (behind ▸ List.mem_append_right _ member)
            rcases parseHumanValue_cases strtod strptime timegm t validT (sortedLfm name labels) body inner
              with ⟨result, same, inside⟩ | ⟨point, a, raw, bytes, reached, unescapes, small, split⟩
            · refine Or.inl ⟨first, Local.stays ⟨result, fun beyond => ?_, inside⟩⟩
              rw [later, run']
              exact same beyond
            · exact Or.inr (Or.inr ⟨_, a, raw, bytes, .value b spelled room reached, unescapes, small, by
                simp [whole, behind, split]⟩)
          · refine Or.inl ⟨first, Local.stays (local_of_refusal fun beyond => ?_)⟩
            rw [later, run', Except.ok_bind]
            simp only [ne_eq, sign, not_false_eq_true, if_true]
            rfl

/-- Both parsers stay inside their string exactly when it is no lone name and has no unfinished
quoted string that ends with a backslash. -/
theorem humanParsers_stayInString_iff (s : CString) :
    (StaysInString parseHumanLfm s ∧
      StaysInString (parseHumanLfmAndValue strtod strptime timegm t validT) s) ↔
      ¬ LoneName s ∧ ¬ UnfinishedEscape s := by
  constructor
  · rintro ⟨-, -, inside⟩
    refine ⟨?_, ?_⟩
    · rintro ⟨a, b, name, ident, small, whole⟩
      apply inside
      rw [parseHumanLfmAndValue_of_ok strtod strptime timegm t validT
        (whole ▸ parseHumanLfmHelper_name a b ident small [])]
      rfl
    · rintro ⟨front, a, raw, bytes, point, unescapes, small, whole⟩
      apply inside
      have nulFree := s.nulFree
      rw [whole] at nulFree
      simp only [List.mem_append, List.mem_cons, not_or] at nulFree
      rw [whole, List.append_assoc]
      apply parseHumanLfmAndValue_stops strtod strptime timegm t validT point nulFree.1 _ (by simp)
      · rw [List.append_assoc]
        exact head_quote a _
      · simpa using scan_overrun unescapes nulFree.2.2.2.1 small a
  · rintro ⟨noName, noEscape⟩
    exact (humanParsers_cases strtod strptime timegm t validT s).resolve_right
      (not_or.mpr ⟨noName, noEscape⟩)

end Put

/-- A lone name makes the parser of the put command read behind its NUL byte. -/
theorem humanParsers_loneName :
    ¬ ∀ (Tm : Type) (strtod : CString → Word) (strptime : CString → Option Tm) (timegm : Tm → Int) (t : Int)
      (validT : Bool) (s : CString), StaysInString parseHumanLfm s ∧
        StaysInString (parseHumanLfmAndValue strtod strptime timegm t validT) s := by
  intro claim
  have inside := (claim Unit (fun _ => 0#64) (fun _ => none) (fun _ => 0) 0 false (CString.at [97])).2.2
  exact inside rfl

end Menoetius
