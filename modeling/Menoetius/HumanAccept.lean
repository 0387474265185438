import Menoetius.HumanParse

/-
This file settles which strings `parse_human_lfm` accepts, and with which result.
-/

namespace Menoetius

/-- The parser accepts the grammar and no other string, and it returns the name and the pairs sorted by
their keys, whatever lies behind the string. -/
def AcceptsGrammar (s : CString) : Prop :=
  ∀ beyond, ((∃ lfm, parseHumanLfm (s.bytes ++ 0 :: beyond) = .ok lfm) ↔
      ∃ name pairs, HumanText AnyLength name pairs s.bytes) ∧
    ∀ lfm, parseHumanLfm (s.bytes ++ 0 :: beyond) = .ok lfm →
      ∃ name pairs, HumanText AnyLength name pairs s.bytes ∧ lfm.name = some name ∧ lfm.labels.Perm pairs ∧
        lfm.labels.Pairwise fun first second => (keyValueCmp first second).isLE = true

/-- A label set in braces, with tokens that the counters have room for, is followed by more than blanks. -/
def TextBehindBrace (s : CString) : Prop :=
  ∃ name pairs text rest, BracesText IsInt name pairs text ∧ pairs.length ≤ 64 ∧ s.bytes = text ++ rest ∧
    ∀ count, rest ≠ blanks count

/-- The array of labels has room for 64 labels only. -/
def TooManyLabels (s : CString) : Prop :=
  ∃ name pairs, HumanText AnyLength name pairs s.bytes ∧ 64 < pairs.length

/-- The counters have no room for the name, for a key or for a quoted value. -/
def LongToken (s : CString) : Prop :=
  (∃ name pairs, HumanText AnyLength name pairs s.bytes) ∧ ¬ ∃ name pairs, HumanText IsInt name pairs s.bytes

/-- The string ends inside the value of a label that has room, with a backslash as its last character. A quote behind its
NUL byte would be in the range of the counters. -/
def EscapeAtEnd (s : CString) : Prop :=
  ∃ front pairs a raw bytes, HumanPoint front pairs true ∧ pairs < 64 ∧ Unescapes raw bytes ∧
    IsInt (raw.length + 4) ∧ s.bytes = front ++ (blanks a ++ 34 :: (raw ++ [92]))

theorem parseHumanLfm_of_ok {s rest : List UInt8} {lfm : LFM}
    (run : parseHumanLfmHelper s = .ok (lfm, rest)) : parseHumanLfm s = .ok lfm := by
  rw [parseHumanLfm, run]
  rfl

theorem parseHumanLfm_of_error {s : List UInt8} {failure : Failure}
    (run : parseHumanLfmHelper s = .error failure) : parseHumanLfm s = .error failure := by
  rw [parseHumanLfm, run]
  rfl

theorem helper_of_parseHumanLfm {s : List UInt8} {lfm : LFM} (run : parseHumanLfm s = .ok lfm) :
    ∃ rest, parseHumanLfmHelper s = .ok (lfm, rest) := by
  cases inner : parseHumanLfmHelper s with
  | error failure =>
      rw [parseHumanLfm_of_error inner] at run
      cases run
  | ok result =>
      obtain ⟨other, rest⟩ := result
      rw [parseHumanLfm_of_ok inner] at run
      cases run
      exact ⟨rest, rfl⟩

/-- A text that the helper has read is the text of its result. -/
theorem acceptsGrammar_result {name : CString} {pairs : List KeyValue} {s : CString} {lfm : LFM}
    (spelled : HumanText IsInt name pairs s.bytes) (result : lfm = sortedLfm name pairs) :
    ∃ name pairs, HumanText AnyLength name pairs s.bytes ∧ lfm.name = some name ∧ lfm.labels.Perm pairs ∧
      lfm.labels.Pairwise fun first second => (keyValueCmp first second).isLE = true := by
  subst result
  exact ⟨name, pairs, spelled.any, rfl, lfmSortLabels_perm _, lfmSortLabels_pairwise _⟩

/-- A text of the grammar is accepted when the parser has room for its labels and its tokens. -/
theorem parseHumanLfm_text {name : CString} {pairs : List KeyValue} {s : CString}
    (spelled : HumanText AnyLength name pairs s.bytes) (few : ¬ TooManyLabels s) (short : ¬ LongToken s)
    (beyond : List UInt8) : ∃ lfm, parseHumanLfm (s.bytes ++ 0 :: beyond) = .ok lfm := by
  obtain ⟨name, pairs, spelled⟩ := not_not.mp fun long => short ⟨⟨name, pairs, spelled⟩, long⟩
  have room : pairs.length ≤ 64 := by
    by_contra many
    exact few ⟨name, pairs, spelled.any, Nat.not_le.mp many⟩
  obtain ⟨rest, reads⟩ := parseHumanLfmHelper_text spelled s.nulFree beyond
  exact ⟨_, parseHumanLfm_of_ok (reads.run room fun _ small => small)⟩

/-- A text that is never accepted is not in the grammar. -/
theorem acceptsGrammar_never {s : CString} {beyond : List UInt8} (few : ¬ TooManyLabels s) (short : ¬ LongToken s)
    (never : ∀ lfm, parseHumanLfm (s.bytes ++ 0 :: beyond) ≠ .ok lfm) :
    ((∃ lfm, parseHumanLfm (s.bytes ++ 0 :: beyond) = .ok lfm) ↔
        ∃ name pairs, HumanText AnyLength name pairs s.bytes) ∧
      ∀ lfm, parseHumanLfm (s.bytes ++ 0 :: beyond) = .ok lfm →
        ∃ name pairs, HumanText AnyLength name pairs s.bytes ∧ lfm.name = some name ∧ lfm.labels.Perm pairs ∧
          lfm.labels.Pairwise fun first second => (keyValueCmp first second).isLE = true := by
  refine ⟨⟨fun ⟨lfm, run⟩ => absurd run (never lfm), ?_⟩, fun lfm run => absurd run (never lfm)⟩
  rintro ⟨name, pairs, spelled⟩
  obtain ⟨lfm, run⟩ := parseHumanLfm_text spelled few short beyond
  exact absurd run (never lfm)

/-- Without the exceptions, the parser accepts the grammar. -/
theorem acceptsGrammar_of_not {s : CString} (alone : ¬ TextBehindBrace s) (few : ¬ TooManyLabels s)
    (short : ¬ LongToken s) (closed : ¬ EscapeAtEnd s) : AcceptsGrammar s := by
  intro beyond
  cases helperRuns s.bytes s.nulFree with
  | named a b name whole ident small run =>
      have spelled : HumanText IsInt name [] s.bytes := whole ▸ HumanText.name a b ident small
      have accepted := parseHumanLfm_of_ok (run beyond)
      refine ⟨⟨fun _ => ⟨name, [], spelled.any⟩, fun _ => ⟨_, accepted⟩⟩, fun lfm result => ?_⟩
      rw [accepted, Except.ok.injEq] at result
      exact acceptsGrammar_result spelled result.symm
  | braces name labels text rest whole braced room run =>
      obtain ⟨count, rfl⟩ : ∃ count, rest = blanks count := by
        by_contra more
        exact alone ⟨name, labels, text, rest, braced, room, whole, not_exists.mp more⟩
      have spelled : HumanText IsInt name labels s.bytes := whole ▸ HumanText.braces count braced
      have accepted := parseHumanLfm_of_ok (run beyond)
      refine ⟨⟨fun _ => ⟨name, labels, spelled.any⟩, fun _ => ⟨_, accepted⟩⟩, fun lfm result => ?_⟩
      rw [accepted, Except.ok.injEq] at result
      exact acceptsGrammar_result spelled result.symm
  | fails failure own run =>
      refine acceptsGrammar_never few short fun lfm accepted => ?_
      rw [parseHumanLfm_of_error (run beyond)] at accepted
      cases accepted
  | overruns front pairs value a raw bytes whole point unescapes _ room guarded =>
      rcases guarded with ⟨rfl, space, small⟩ | never
      · exact absurd ⟨front, pairs, a, raw, bytes, point, space, unescapes, small, whole⟩ closed
      · refine acceptsGrammar_never few short fun lfm accepted => ?_
        obtain ⟨rest, run⟩ := helper_of_parseHumanLfm accepted
        exact never beyond _ run

/-- Text behind the closing brace is ignored. -/
theorem not_textBehindBrace {s : CString} (accepts : AcceptsGrammar s) : ¬ TextBehindBrace s := by
  rintro ⟨name, pairs, text, rest, braced, room, whole, more⟩
  have nulFree := s.nulFree
  rw [whole, List.mem_append, not_or] at nulFree
  have run : parseHumanLfmHelper (s.bytes ++ 0 :: []) = .ok (sortedLfm name pairs, rest ++ [0]) := by
    rw [whole, List.append_assoc]
    exact (parseHumanLfmHelper_braces braced nulFree.1 (by simp)).run room fun _ small => small
  obtain ⟨name', pairs', spelled⟩ := (accepts []).1.mp ⟨_, parseHumanLfm_of_ok run⟩
  generalize original : s.bytes = bytes at spelled
  cases spelled with
  | name a b ident =>
      by_cases small : IsInt (name'.bytes.length + 1)
      · rw [original, parseHumanLfmHelper_name a b ident small []] at run
        simp at run
      · rw [original, List.append_assoc _ (blanks b), parseHumanLfmHelper_long a ident small (head_end b [])] at run
        cases run
  | @braces b _ _ text' braced' =>
      have clean : 0 ∉ text' := fun member => s.nulFree (original ▸ List.mem_append_left _ member)
      rw [original, List.append_assoc] at run
      rcases parseHumanLfmHelper_braces braced' clean (s := blanks b ++ [0]) (by simp) with ⟨-, -, same⟩ | ⟨same, -⟩
      · rw [same] at run
        simp only [Except.ok.injEq, Prod.mk.injEq, List.append_cancel_right_eq] at run
        exact more b run.2.symm
      · rw [same] at run
        cases run

/-- A text of the grammar that is accepted has few labels and short tokens. -/
theorem few_of_accepts {s : CString} (accepts : AcceptsGrammar s) {name : CString} {pairs : List KeyValue}
    (spelled : HumanText AnyLength name pairs s.bytes) :
    pairs.length ≤ 64 ∧ HumanText IsInt name pairs s.bytes := by
  obtain ⟨lfm, run⟩ := (accepts []).1.mpr ⟨name, pairs, spelled⟩
  obtain ⟨rest, ⟨room, small, -⟩ | ⟨stops, -⟩⟩ := parseHumanLfmHelper_text spelled s.nulFree []
  · exact ⟨room, small⟩
  · rw [parseHumanLfm_of_error stops] at run
    cases run

/-- The label that does not fit in the array stops the process. -/
theorem not_tooManyLabels {s : CString} (accepts : AcceptsGrammar s) : ¬ TooManyLabels s := by
  rintro ⟨name, pairs, spelled, many⟩
  exact absurd (few_of_accepts accepts spelled).1 (Nat.not_le.mpr many)

/-- The counter that is not an `int` stops the process. -/
theorem not_longToken {s : CString} (accepts : AcceptsGrammar s) : ¬ LongToken s := by
  rintro ⟨⟨name, pairs, spelled⟩, long⟩
  exact long ⟨name, pairs, (few_of_accepts accepts spelled).2⟩

/-- A quote behind the string completes its last value. -/
theorem not_escapeAtEnd {s : CString} (accepts : AcceptsGrammar s) : ¬ EscapeAtEnd s := by
  rintro ⟨front, pairs, a, raw, bytes, point, space, unescapes, small, whole⟩
  have nulFree := s.nulFree
  rw [whole] at nulFree
  simp only [List.mem_append, List.mem_cons, not_or] at nulFree
  obtain ⟨result, accepted⟩ := parseHumanLfmHelper_beyond point nulFree.1 space unescapes nulFree.2.2.2.1 small a
  rw [← whole] at accepted
  obtain ⟨name, labels, spelled⟩ := (accepts [34, 125]).1.mp ⟨_, parseHumanLfm_of_ok accepted⟩
  obtain ⟨lfm, run⟩ := parseHumanLfm_text spelled (not_tooManyLabels accepts) (not_longToken accepts) []
  have stops := parseHumanLfmHelper_stops point nulFree.1 (by omega) (blanks a ++ 34 :: (raw ++ [92]) ++ [0])
    (by simp) (by rw [List.append_assoc]; exact head_quote a _) _
    (by simpa using scan_overrun unescapes nulFree.2.2.2.1 (small.less (by omega)) a)
  rw [← List.append_assoc, ← whole] at stops
  rw [parseHumanLfm_of_error stops] at run
  cases run

/-- The parser accepts exactly the grammar, unless text follows a closing brace, there are too many
labels or too long tokens, or the string ends with a backslash inside a value. -/
theorem parseHumanLfm_acceptsGrammar_iff (s : CString) :
    AcceptsGrammar s ↔ ¬ TextBehindBrace s ∧ ¬ TooManyLabels s ∧ ¬ LongToken s ∧ ¬ EscapeAtEnd s :=
  ⟨fun accepts => ⟨not_textBehindBrace accepts, not_tooManyLabels accepts, not_longToken accepts,
      not_escapeAtEnd accepts⟩,
    fun ⟨alone, few, short, closed⟩ => acceptsGrammar_of_not alone few short closed⟩

/-- The string `a{}b` is accepted. -/
theorem parseHumanLfm_behindBrace : ¬ ∀ s, AcceptsGrammar s := by
  intro claim
  have ident : IdentText (CString.at [97]).bytes := by decide
  apply not_textBehindBrace (claim (CString.at [97, 123, 125, 98]))
  refine ⟨CString.at [97], [], [97, 123, 125], [98], ?_, by decide, rfl, ?_⟩
  · exact ⟨[97], 0, [125], .present 0 ident (by decide), .close 0, rfl⟩
  · intro count equal
    cases count <;> simp [blanks, List.replicate_succ] at equal

end Menoetius
