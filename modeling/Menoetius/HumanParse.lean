import Menoetius.HumanStages

/-
This file says which strings `parse_human_lfm` accepts.
-/

namespace Menoetius

/-- The optional name in front of the braces. -/
inductive NameText (fits : Nat → Prop) : CString → List UInt8 → Prop
  | absent : NameText fits (CString.at []) []
  | present (a : Nat) {name : CString} (ident : IdentText name.bytes) (nameFits : fits (name.bytes.length + 1)) :
      NameText fits name (blanks a ++ name.bytes)

/-- A label set through its closing brace. -/
def BracesText (fits : Nat → Prop) (name : CString) (labels : List KeyValue) (text : List UInt8) : Prop :=
  ∃ front count body, NameText fits name front ∧ LabelsText fits labels body ∧
    text = front ++ (blanks count ++ 123 :: body)

/-- The human form of a label set is a lone name, or a label set in braces. -/
inductive HumanText (fits : Nat → Prop) : CString → List KeyValue → List UInt8 → Prop
  | name (a b : Nat) {name : CString} (ident : IdentText name.bytes) (nameFits : fits (name.bytes.length + 1)) :
      HumanText fits name [] (blanks a ++ name.bytes ++ blanks b)
  | braces (b : Nat) {name : CString} {labels : List KeyValue} {text : List UInt8}
      (spelled : BracesText fits name labels text) : HumanText fits name labels (text ++ blanks b)

section Spelled
variable {fits : Nat → Prop} {name : CString} {labels : List KeyValue} {text : List UInt8}

theorem NameText.any (spelled : NameText fits name text) : NameText AnyLength name text := by
  cases spelled with
  | absent => exact .absent
  | present a ident => exact .present a ident trivial

theorem BracesText.any (spelled : BracesText fits name labels text) : BracesText AnyLength name labels text := by
  obtain ⟨front, count, body, named, inner, whole⟩ := spelled
  exact ⟨front, count, body, named.any, inner.any, whole⟩

theorem HumanText.any (spelled : HumanText fits name labels text) : HumanText AnyLength name labels text := by
  cases spelled with
  | name a b ident => exact .name a b ident trivial
  | braces b spelled => exact .braces b spelled.any

end Spelled

/-- The parser has read the front of a text with some pairs and expects a token, perhaps a value. -/
inductive HumanPoint : List UInt8 → Nat → Bool → Prop
  | first : HumanPoint [] 0 false
  | second (a : Nat) {name : CString} (ident : IdentText name.bytes) (small : IsInt (name.bytes.length + 1)) :
      HumanPoint (blanks a ++ name.bytes) 0 false
  | label (count : Nat) {name : CString} {front point : List UInt8} {pairs : Nat} {value : Bool}
      (named : NameText IsInt name front) (inner : StagePoint .key point pairs value) :
      HumanPoint (front ++ (blanks count ++ 123 :: point)) pairs value

/-- The label set with sorted labels. -/
def sortedLfm (name : CString) (labels : List KeyValue) : LFM := lfmSortLabels ⟨some name, labels⟩

section Braces
variable {fits : Nat → Prop} {name : CString} {labels : List KeyValue} {text s : List UInt8}

theorem parseHumanBraces_stages (name : CString) (s : List UInt8) :
    parseHumanBraces name s = (do
      let (lfm, rest) ← labelStages (4 * (s.length + 1)) .key (growing name []) s
      return (lfmSortLabels lfm.toLFM, rest)) := by
  rw [parseHumanBraces, parseHumanLabels_stages]
  rfl

theorem parseHumanBraces_of_ok {after : List KeyValue} {rest : List UInt8}
    (run : labelStages (4 * (s.length + 1)) .key (growing name []) s = .ok (growing name after, rest)) :
    parseHumanBraces name s = .ok (sortedLfm name after, rest) := by
  rw [parseHumanBraces_stages, run]
  rfl

theorem parseHumanBraces_of_error {failure : Failure}
    (run : labelStages (4 * (s.length + 1)) .key (growing name []) s = .error failure) :
    parseHumanBraces name s = .error failure := by
  rw [parseHumanBraces_stages, run]
  rfl

theorem head_brace (count : Nat) (s : List UInt8) :
    ∃ c rest, blanks count ++ 123 :: s = c :: rest ∧ isIdentChar c = false := by
  cases count with
  | zero => exact ⟨123, s, rfl, rfl⟩
  | succ count => exact ⟨32, blanks count ++ 123 :: s, rfl, rfl⟩

/-- The helper parses the label set behind the tokens of its front. -/
theorem parseHumanLfmHelper_front {front : List UInt8} (named : NameText IsInt name front) (count : Nat)
    (s : List UInt8) :
    parseHumanLfmHelper (front ++ (blanks count ++ 123 :: s)) = parseHumanBraces name s := by
  have brace : scan (blanks count ++ 123 :: s) = .ok (.openBrace, s) := by
    rw [scan_blanks]
    exact charToken_run 123 s .openBrace rfl
  cases named with
  | absent => rw [List.nil_append, parseHumanLfmHelper, brace]; rfl
  | present a ident small =>
      have read : scan (blanks a ++ name.bytes ++ (blanks count ++ 123 :: s)) =
          .ok (.identifier name, blanks count ++ 123 :: s) := by
        obtain ⟨c, rest, ahead, outside⟩ := head_brace count s
        rw [List.append_assoc, scan_blanks, ahead]
        exact scan_identifier name ident small c rest outside
      rw [parseHumanLfmHelper, read, Except.ok_bind]
      simp only [brace, Except.ok_bind]

theorem head_end (b : Nat) (beyond : List UInt8) :
    ∃ c rest, blanks b ++ 0 :: beyond = c :: rest ∧ isIdentChar c = false := by
  cases b with
  | zero => exact ⟨0, beyond, rfl, rfl⟩
  | succ b => exact ⟨32, blanks b ++ 0 :: beyond, rfl, rfl⟩

/-- A lone name is read together with the NUL byte behind it. -/
theorem parseHumanLfmHelper_name (a b : Nat) (ident : IdentText name.bytes) (small : IsInt (name.bytes.length + 1))
    (beyond : List UInt8) :
    parseHumanLfmHelper (blanks a ++ name.bytes ++ blanks b ++ 0 :: beyond) =
      .ok (sortedLfm name [], beyond) := by
  have read : scan (blanks a ++ name.bytes ++ blanks b ++ 0 :: beyond) =
      .ok (.identifier name, blanks b ++ 0 :: beyond) := by
    obtain ⟨c, rest, ahead, outside⟩ := head_end b beyond
    rw [List.append_assoc, List.append_assoc, scan_blanks, ahead]
    exact scan_identifier name ident small c rest outside
  have ended : scan (blanks b ++ 0 :: beyond) = .ok (.eof, beyond) := by
    rw [scan_blanks]
    exact charToken_run 0 beyond .eof rfl
  rw [parseHumanLfmHelper, read, Except.ok_bind]
  simp only [ended, Except.ok_bind]
  rfl

/-- A name that is too long stops the process. -/
theorem parseHumanLfmHelper_long (a : Nat) (ident : IdentText name.bytes) (large : ¬ IsInt (name.bytes.length + 1))
    (ahead : ∃ c rest, s = c :: rest ∧ isIdentChar c = false) :
    parseHumanLfmHelper (blanks a ++ name.bytes ++ s) = .error (.abort .memory) := by
  obtain ⟨c, rest, rfl, outside⟩ := ahead
  rw [parseHumanLfmHelper, List.append_assoc, scan_blanks, scan_identifier_long name ident large c rest outside]
  rfl

/-- The helper reads a label set in braces, unless its labels are too many or its tokens too long. -/
theorem parseHumanLfmHelper_braces (spelled : BracesText fits name labels text) (nulFree : 0 ∉ text)
    (ends : 0 ∈ s) :
    ReadsOrStops fits (labels.length ≤ 64) (BracesText IsInt name labels text) (parseHumanLfmHelper (text ++ s))
      (sortedLfm name labels, s) := by
  obtain ⟨front, count, body, named, inner, rfl⟩ := spelled
  simp only [List.mem_append, List.mem_cons, not_or] at nulFree
  have loop := @labelStages_text _ _ _ _ _ name (labelsText_iff.mp inner) nulFree.2.2.2 ends []
    (4 * ((body ++ s).length + 1)) (by simp; omega) (by decide)
  rw [List.length_nil, Nat.zero_add, List.nil_append] at loop
  rw [List.append_assoc, List.append_assoc, List.cons_append]
  -- The name is read first, and the loop does what it does behind it.
  have later : NameText IsInt name front → ReadsOrStops fits (labels.length ≤ 64)
      (BracesText IsInt name labels (front ++ (blanks count ++ 123 :: body)))
      (parseHumanLfmHelper (front ++ (blanks count ++ 123 :: (body ++ s)))) (sortedLfm name labels, s) := by
    intro short
    rw [parseHumanLfmHelper_front short]
    rcases loop with ⟨room, small, run⟩ | ⟨run, never⟩
    · exact Or.inl ⟨room, ⟨front, count, body, short, labelsText_iff.mpr small, rfl⟩, parseHumanBraces_of_ok run⟩
    · exact Or.inr ⟨parseHumanBraces_of_error run, never⟩
  cases named with
  | absent => exact later .absent
  | present a ident nameFits =>
      by_cases small : IsInt (name.bytes.length + 1)
      · exact later (.present a ident small)
      · exact Or.inr ⟨parseHumanLfmHelper_long a ident small (head_brace count _), fun both => small (both.2 _ nameFits)⟩

/-- A text of the grammar is accepted exactly when its labels have room and its tokens are short enough. -/
theorem parseHumanLfmHelper_text (spelled : HumanText fits name labels text) (nulFree : 0 ∉ text)
    (beyond : List UInt8) :
    ∃ rest, ReadsOrStops fits (labels.length ≤ 64) (HumanText IsInt name labels text)
      (parseHumanLfmHelper (text ++ 0 :: beyond)) (sortedLfm name labels, rest) := by
  cases spelled with
  | name a b ident nameFits =>
      refine ⟨beyond, ?_⟩
      by_cases small : IsInt (name.bytes.length + 1)
      · exact Or.inl ⟨by simp, .name a b ident small, parseHumanLfmHelper_name a b ident small beyond⟩
      · rw [List.append_assoc (blanks a ++ name.bytes)]
        exact Or.inr ⟨parseHumanLfmHelper_long a ident small (head_end b beyond), fun both => small (both.2 _ nameFits)⟩
  | @braces b _ _ text spelled =>
      simp only [List.mem_append, not_or] at nulFree
      refine ⟨blanks b ++ 0 :: beyond, ?_⟩
      rw [List.append_assoc]
      exact (parseHumanLfmHelper_braces spelled nulFree.1 (by simp)).step Iff.rfl (.braces b) rfl

end Braces

/-- What the helper does with a text, whatever lies behind its NUL byte. -/
inductive HelperRuns (t : List UInt8) : Prop
  | named (a b : Nat) (name : CString) (whole : t = blanks a ++ name.bytes ++ blanks b)
      (ident : IdentText name.bytes) (small : IsInt (name.bytes.length + 1))
      (run : ∀ beyond, parseHumanLfmHelper (t ++ 0 :: beyond) = .ok (sortedLfm name [], beyond))
  | braces (name : CString) (labels : List KeyValue) (text rest : List UInt8) (whole : t = text ++ rest)
      (spelled : BracesText IsInt name labels text) (room : labels.length ≤ 64)
      (run : ∀ beyond, parseHumanLfmHelper (t ++ 0 :: beyond) = .ok (sortedLfm name labels, rest ++ 0 :: beyond))
  | fails (failure : Failure) (own : failure.IsOwn)
      (run : ∀ beyond, parseHumanLfmHelper (t ++ 0 :: beyond) = .error failure)
  | overruns (front : List UInt8) (pairs : Nat) (value : Bool) (a : Nat) (raw bytes : List UInt8)
      (whole : t = front ++ (blanks a ++ 34 :: (raw ++ [92]))) (point : HumanPoint front pairs value)
      (unescapes : Unescapes raw bytes) (small : IsInt (raw.length + 3)) (room : pairs ≤ 64)
      (guarded : value = true ∧ pairs < 64 ∧ IsInt (raw.length + 4) ∨
        ∀ beyond result, parseHumanLfmHelper (t ++ 0 :: beyond) ≠ .ok result)

/-- The cases of the label loop are those of the helper behind the opening brace. -/
theorem helperRuns_front {name : CString} {front : List UInt8} (named : NameText IsInt name front) (count : Nat)
    (body : List UInt8) (nulFree : 0 ∉ body) : HelperRuns (front ++ (blanks count ++ 123 :: body)) := by
  have same : ∀ beyond, parseHumanLfmHelper (front ++ (blanks count ++ 123 :: body) ++ 0 :: beyond) =
      parseHumanBraces name (body ++ 0 :: beyond) := by
    intro beyond
    rw [List.append_assoc, List.append_assoc, List.cons_append, parseHumanLfmHelper_front named]
  have enough : ∀ beyond : List UInt8, body.length < 4 * ((body ++ 0 :: beyond).length + 1) := by
    intro beyond
    simp
    omega
  cases @stageRuns name (body.length + 1) body .key [] (Nat.lt_succ_self _) nulFree (by decide) with
  | reads added text rest whole spelled room run =>
      refine .braces name added (front ++ (blanks count ++ 123 :: text)) rest (by simp [whole])
        ⟨front, count, text, named, labelsText_iff.mpr spelled, rfl⟩ (by simpa using room) ?_
      intro beyond
      rw [same]
      exact parseHumanBraces_of_ok (run _ beyond (enough beyond))
  | fails failure own run =>
      refine .fails failure own fun beyond => ?_
      rw [same]
      exact parseHumanBraces_of_error (run _ beyond (enough beyond))
  | overruns point pairs value a raw bytes whole reached unescapes small room guarded =>
      rw [List.length_nil, Nat.zero_add] at room guarded
      refine .overruns (front ++ (blanks count ++ 123 :: point)) pairs value a raw bytes (by simp [whole])
        (.label count named reached) unescapes small room (guarded.imp_right fun never beyond result run => ?_)
      rw [same, parseHumanBraces_stages] at run
      cases inner : labelStages (4 * ((body ++ 0 :: beyond).length + 1)) .key (growing name [])
        (body ++ 0 :: beyond) with
      | error failure =>
          rw [inner] at run
          cases run
      | ok result => exact never _ beyond result inner

/-- A quoted string in front is no label set. -/
theorem parseHumanLfmHelper_quote (count : Nat) (s : List UInt8) (result : LFM × List UInt8) :
    parseHumanLfmHelper (blanks count ++ 34 :: s) ≠ .ok result := by
  intro run
  rw [parseHumanLfmHelper] at run
  cases read : scan (blanks count ++ 34 :: s) with
  | error failure => simp [read] at run
  | ok first =>
      obtain ⟨token, rest⟩ := first
      obtain ⟨lit, rfl⟩ := scan_quote_token read
      simp [read, throw, throwThe, MonadExceptOf.throw] at run

/-- Every text has exactly these cases. -/
theorem helperRuns (t : List UInt8) (nulFree : 0 ∉ t) : HelperRuns t := by
  cases scans t nulFree with
  | ended count whole run =>
      refine .fails _ (Or.inl rfl) fun beyond => ?_
      rw [parseHumanLfmHelper, run]
      rfl
  | refuses failure own run =>
      refine .fails failure own fun beyond => ?_
      rw [parseHumanLfmHelper, run]
      rfl
  | overruns count raw bytes whole unescapes small =>
      refine .overruns [] 0 false count raw bytes (by simp [whole]) .first unescapes small (by decide) (Or.inr ?_)
      intro beyond result
      rw [whole, List.append_assoc, List.append_assoc, List.cons_append]
      exact parseHumanLfmHelper_quote count _ result
  | reads count token text rest whole spelled bounds run =>
      have clean : 0 ∉ rest := fun member => nulFree (whole ▸ List.mem_append_right _ member)
      cases token with
      | eof => exact spelled.elim
      | identifier name =>
          obtain ⟨rfl, ident, small⟩ := spelled
          have second : ∀ beyond, parseHumanLfmHelper (t ++ 0 :: beyond) = (do
              let second ← scan (rest ++ 0 :: beyond)
              match second.1 with
              | .eof => return (lfmSortLabels (lfmNew (some name)).toLFM, second.2)
              | .openBrace => parseHumanBraces name second.2
              | _ => throw (.code (.res 1))) := by
            intro beyond
            rw [parseHumanLfmHelper, run, Except.ok_bind]
            apply bind_congr
            rintro ⟨second, s⟩
            cases second <;> rfl
          cases scans rest clean with
          | ended b behind ends =>
              refine .named count b name (by rw [whole, behind]) ident small fun beyond => ?_
              rw [second, ends]
              rfl
          | refuses failure own refused =>
              refine .fails failure own fun beyond => ?_
              rw [second, refused]
              rfl
          | overruns b raw bytes behind unescapes short =>
              refine .overruns (blanks count ++ name.bytes) 0 false b raw bytes
                (by rw [whole, behind, List.append_assoc (blanks b)]; rfl) (.second count ident small) unescapes short
                (by decide) (Or.inr fun beyond result accepted => ?_)
              rw [second] at accepted
              cases read : scan (rest ++ 0 :: beyond) with
              | error failure => simp [read] at accepted
              | ok other =>
                  obtain ⟨other, s⟩ := other
                  rw [read, Except.ok_bind] at accepted
                  rw [behind, List.append_assoc, List.append_assoc, List.cons_append] at read
                  obtain ⟨lit, rfl⟩ := scan_quote_token read
                  cases accepted
          | reads b other text' body behind spelled' bounds' run' =>
              cases other with
              | openBrace =>
                  obtain rfl : text' = [123] := spelled'
                  have split : t = (blanks count ++ name.bytes) ++ (blanks b ++ 123 :: body) := by
                    rw [whole, behind]
                    simp
                  rw [split]
                  exact helperRuns_front (.present count ident small) b body
                    fun member => clean (by rw [behind]; exact List.mem_append_right _ member)
              | eof => exact spelled'.elim
              | _ =>
                  refine .fails _ (Or.inl rfl) fun beyond => ?_
                  rw [second, run']
                  rfl
      | openBrace =>
          obtain rfl : text = [123] := spelled
          have split : t = [] ++ (blanks count ++ 123 :: rest) := by
            rw [whole]
            simp
          rw [split]
          exact helperRuns_front .absent count rest clean
      | _ =>
          refine .fails _ (Or.inl rfl) fun beyond => ?_
          rw [parseHumanLfmHelper, run]
          rfl

/-- The helper reaches the point in front of a token, unless the token does not exist. -/
theorem parseHumanLfmHelper_stops {front : List UInt8} {pairs : Nat} {value : Bool}
    (point : HumanPoint front pairs value) (clean : 0 ∉ front) (room : pairs ≤ 64) (s : List UInt8)
    (ends : 0 ∈ s) (bounded : ∀ c ∈ s.head?, isIdentChar c = false) (failure : Failure)
    (stops : scan s = .error failure) : parseHumanLfmHelper (front ++ s) = .error failure := by
  cases point with
  | first =>
      rw [List.nil_append, parseHumanLfmHelper, stops]
      rfl
  | @second a name ident small =>
      obtain ⟨c, rest, whole⟩ := List.exists_cons_of_ne_nil (List.ne_nil_of_mem ends)
      have read : scan (blanks a ++ name.bytes ++ s) = .ok (.identifier name, s) := by
        rw [List.append_assoc, scan_blanks, whole]
        exact scan_identifier name ident small c rest (bounded c (by rw [whole]; rfl))
      rw [parseHumanLfmHelper, read, Except.ok_bind]
      simp only [stops]
      rfl
  | @label count name front point pairs value named inner =>
      simp only [List.mem_append, List.mem_cons, not_or] at clean
      obtain ⟨fewer, later, reached, left, -, -, run⟩ := @labelStages_reach _ name point s pairs value inner
        clean.2.2.2 ends bounded [] (4 * ((point ++ s).length + 1)) (by simpa using room) (by simp; omega)
      obtain ⟨fewer, rfl⟩ : ∃ less, fewer = less + 1 := ⟨fewer - 1, by simp at left; omega⟩
      rw [List.append_assoc, List.append_assoc, List.cons_append, parseHumanLfmHelper_front named]
      exact parseHumanBraces_of_error (run.trans (labelStages_stops stops))

theorem head_quote (a : Nat) (s : List UInt8) : ∀ c ∈ (blanks a ++ 34 :: s).head?, isIdentChar c = false := by
  cases a with
  | zero => simp [blanks]; decide
  | succ a => simp [blanks, List.replicate_succ]; decide

/-- The helper takes a value that a quote behind the NUL byte completes. -/
theorem parseHumanLfmHelper_beyond {front raw bytes : List UInt8} {pairs : Nat}
    (point : HumanPoint front pairs true) (clean : 0 ∉ front) (room : pairs < 64)
    (unescapes : Unescapes raw bytes) (nulFree : 0 ∉ raw) (small : IsInt (raw.length + 4)) (a : Nat) :
    ∃ result, parseHumanLfmHelper (front ++ (blanks a ++ 34 :: (raw ++ [92])) ++ 0 :: [34, 125]) =
      .ok result := by
  cases point with
  | @label count name front point pairs value named inner =>
      simp only [List.mem_append, List.mem_cons, not_or] at clean
      obtain ⟨lit, read⟩ := scan_beyond unescapes nulFree small a [125]
      have bounded : ∀ c ∈ (blanks a ++ 34 :: (raw ++ [92]) ++ 0 :: [34, 125]).head?, isIdentChar c = false := by
        rw [List.append_assoc]
        exact head_quote a _
      obtain ⟨fewer, later, reached, left, kind, total, run⟩ := @labelStages_reach _ name point
        (blanks a ++ 34 :: (raw ++ [92]) ++ 0 :: [34, 125]) pairs true inner clean.2.2.2 (by simp)
        bounded [] (4 * ((point ++ (blanks a ++ 34 :: (raw ++ [92]) ++ 0 :: [34, 125])).length + 1))
        (by simp; omega) (by simp; omega)
      obtain ⟨fewer, rfl⟩ : ∃ less, fewer = less + 2 := ⟨fewer - 2, by simp at left; omega⟩
      have space : reached.length < 64 := by simp at total; omega
      cases later with
      | value key =>
          refine ⟨(sortedLfm name (reached ++ [⟨key, lit⟩]), []), ?_⟩
          rw [List.append_assoc, List.append_assoc, List.append_assoc, List.cons_append,
            parseHumanLfmHelper_front named]
          apply parseHumanBraces_of_ok
          rw [run, labelStages_read read (labelToken_value space)]
          exact labelStages_ends (charToken_run 125 [] .closeBrace rfl) rfl
      | _ => cases kind

end Menoetius
