import Menoetius.HumanScan

/-
This file says which texts the scanner takes for its tokens.
-/

namespace Menoetius
open Ctype

def blanks (count : Nat) : List UInt8 := List.replicate count 32

/-- An identifier starts with a letter or an underscore. -/
def IdentText (text : List UInt8) : Prop :=
  text ≠ [] ∧ (∀ c ∈ text.head?, isIdentStart c = true) ∧ ∀ c ∈ text, isIdentChar c = true

instance (text : List UInt8) : Decidable (IdentText text) :=
  @instDecidableAnd _ _ inferInstance (@instDecidableAnd _ _ (Option.decidableForallMem _) (List.decidableBAll _ text))

/-- A backslash between the quotes keeps the next byte as it is. -/
inductive Unescapes : List UInt8 → List UInt8 → Prop
  | nil : Unescapes [] []
  | plain {c : UInt8} {raw bytes : List UInt8} (nonzero : c ≠ 0) (noQuote : c ≠ 34) (noEscape : c ≠ 92)
      (rest : Unescapes raw bytes) : Unescapes (c :: raw) (c :: bytes)
  | escaped {c : UInt8} {raw bytes : List UInt8} (rest : Unescapes raw bytes) :
      Unescapes (92 :: c :: raw) (c :: bytes)

/-- The number is an `int`. -/
def IsInt (n : Nat) : Prop := n < 2 ^ 31

instance (n : Nat) : Decidable (IsInt n) := inferInstanceAs (Decidable (n < 2 ^ 31))

/-- The scanner reads these characters as one number of the given kind. -/
def NumberText (token : HumanToken) (lit : CString) : Prop :=
  (∀ c ∈ lit.bytes.head?, isDigit c = true) ∧ lit.bytes ≠ [] ∧ (∀ c ∈ lit.bytes, endsNumber c = false) ∧
    (lit.bytes.foldlM numberChar ⟨0, false, 0, false, 0⟩ >>= fun n => numberToken n lit) = .ok token ∧
    IsInt (lit.bytes.length + 1)

/-- The text of a token, for which the counters have room. The end of the string has none. -/
def TokenText (token : HumanToken) (text : List UInt8) : Prop :=
  match token with
  | .eof => False
  | .identifier lit => text = lit.bytes ∧ IdentText lit.bytes ∧ IsInt (lit.bytes.length + 1)
  | .quotedString lit => ∃ raw, text = 34 :: raw ++ [34] ∧ Unescapes raw lit.bytes ∧ IsInt (raw.length + 2)
  | .openBrace => text = [123]
  | .closeBrace => text = [125]
  | .comma => text = [44]
  | .equal => text = [61]
  | .atSign => text = [64]
  | .int lit | .float lit | .timestamp lit => text = lit.bytes ∧ NumberText token lit

/-- The character class that a token cannot leave in front of the rest. -/
def HumanToken.continues : HumanToken → UInt8 → Bool
  | .identifier _, c => isIdentChar c
  | .int _, c | .float _, c | .timestamp _, c => !endsNumber c
  | _, _ => false

/-- The rest does not continue the token. -/
def Bounds (token : HumanToken) (rest : List UInt8) : Prop :=
  ∀ c ∈ rest.head?, token.continues c = false

/-- The failures of the parser that do not come from a read behind the string. -/
def Failure.IsOwn (failure : Failure) : Prop := failure = .code (.res 1) ∨ failure = .abort .memory

section Completeness

theorem needInt_run {n : Nat} (small : IsInt n) : needInt n = .ok () := if_pos small

theorem needInt_stops {n : Nat} (large : ¬ IsInt n) : needInt n = .error (.abort .memory) := if_neg large

theorem IsInt.less {m n : Nat} (small : IsInt n) (less : m ≤ n) : IsInt m := Nat.lt_of_le_of_lt less small

theorem isIdentChar_of_start {c : UInt8} (start : isIdentStart c = true) : isIdentChar c = true := by
  unfold isIdentStart at start
  unfold isIdentChar
  cases alpha : isAlpha c <;> simp_all

theorem scan_blanks (count : Nat) (s : List UInt8) : scan (blanks count ++ s) = scan s := by
  induction count with
  | zero => rfl
  | succ count ih =>
      rw [blanks, List.replicate_succ, List.cons_append, scan, if_pos rfl]
      exact ih

theorem identChars_run (chars : List UInt8) (c : UInt8) (s : List UInt8)
    (inside : ∀ x ∈ chars, isIdentChar x = true) (outside : isIdentChar c = false) :
    identChars (chars ++ c :: s) = .ok (chars, c :: s) := by
  induction chars with
  | nil => simp [identChars, outside, pure, Except.pure]
  | cons x chars ih =>
      have tail := ih fun y member => inside y (List.mem_cons_of_mem x member)
      rw [List.cons_append, identChars, if_pos (inside x List.mem_cons_self), tail]
      rfl

theorem CString.at_terminated (text : CString) (beyond : List UInt8) :
    CString.at (text.bytes ++ 0 :: beyond) = text := by
  apply CString.ext_bytes
  have kept : ∀ c ∈ text.bytes, (c != 0) = true := fun c member =>
    bne_iff_ne.mpr (ne_of_mem_of_not_mem member text.nulFree)
  simp [CString.at, List.takeWhile_append_of_pos kept]

theorem scan_ident (lit : CString) (ident : IdentText lit.bytes) (c : UInt8) (s : List UInt8)
    (outside : isIdentChar c = false) :
    scan (lit.bytes ++ c :: s) =
      (needInt (lit.bytes.length + 1)).bind fun _ => .ok (.identifier lit, c :: s) := by
  obtain ⟨nonempty, start, inside⟩ := ident
  obtain ⟨first, chars, whole⟩ := List.exists_cons_of_ne_nil nonempty
  rw [whole] at start inside
  have starts : isIdentStart first = true := start first rfl
  have noBlank : first ≠ 32 := by
    rintro rfl
    exact absurd starts (by decide)
  have tail := identChars_run chars c s (fun x member => inside x (List.mem_cons_of_mem _ member)) outside
  have same := CString.at_bytes lit
  rw [whole] at same
  rw [whole, List.cons_append, scan, if_neg noBlank, if_pos starts, scanIdent, if_pos starts, tail]
  simp only [Except.ok_bind, same, List.length_cons]
  cases needInt (chars.length + 2) <;> rfl

theorem scan_identifier (lit : CString) (ident : IdentText lit.bytes) (small : IsInt (lit.bytes.length + 1))
    (c : UInt8) (s : List UInt8) (outside : isIdentChar c = false) :
    scan (lit.bytes ++ c :: s) = .ok (.identifier lit, c :: s) := by
  rw [scan_ident lit ident c s outside, needInt_run small]
  rfl

theorem scan_identifier_long (lit : CString) (ident : IdentText lit.bytes) (large : ¬ IsInt (lit.bytes.length + 1))
    (c : UInt8) (s : List UInt8) (outside : isIdentChar c = false) :
    scan (lit.bytes ++ c :: s) = .error (.abort .memory) := by
  rw [scan_ident lit ident c s outside, needInt_stops large]
  rfl

theorem strlen_run (front beyond : List UInt8) (nulFree : 0 ∉ front) :
    strlen (front ++ 0 :: beyond) = .ok front.length := by
  induction front with
  | nil => rfl
  | cons c front ih =>
      simp only [List.mem_cons, not_or] at nulFree
      rw [List.cons_append, strlen, if_neg (Ne.symm nulFree.1), ih nulFree.2]
      rfl

theorem Unescapes.length_le {raw bytes : List UInt8} (unescapes : Unescapes raw bytes) :
    bytes.length ≤ raw.length := by
  induction unescapes with
  | nil => exact le_refl _
  | plain _ _ _ _ ih => simpa using ih
  | escaped _ ih => simp; omega

theorem putChar_run {room : Nat} {t : List UInt8} (space : t.length < room) (c : UInt8) :
    putChar room t c = .ok (t ++ [c]) := if_pos space

theorem quotedChars_plain {c : UInt8} (nonzero : c ≠ 0) (noQuote : c ≠ 34) (noEscape : c ≠ 92)
    (room i : Nat) (t s : List UInt8) :
    quotedChars room i t (c :: s) =
      putChar room t c >>= fun t => needInt (i + 1) >>= fun _ => quotedChars room (i + 1) t s := by
  rw [quotedChars.eq_def]
  simp [nonzero, noQuote, noEscape]

theorem quotedChars_escaped (room i : Nat) (t : List UInt8) (c : UInt8) (s : List UInt8) :
    quotedChars room i t (92 :: c :: s) = needInt (i + 1) >>= fun _ =>
      putChar room t c >>= fun t => needInt (i + 2) >>= fun _ => quotedChars room (i + 2) t s := by
  rw [quotedChars.eq_def]
  simp

/-- The closing quote ends the string. -/
theorem quotedChars_close (room i : Nat) (t s : List UInt8) (space : t.length < room) :
    quotedChars room i t (34 :: s) = needInt (i + 1) >>= fun _ => .ok (t ++ [0], s) := by
  rw [quotedChars.eq_def]
  simp [putChar_run space, pure, Except.pure]

/-- The loop of the quoted string copies the unescaped bytes. -/
theorem quotedChars_run {raw bytes : List UInt8} (unescapes : Unescapes raw bytes) (room i : Nat)
    (t s : List UInt8) (fits : t.length + bytes.length ≤ room) (small : IsInt (i + raw.length)) :
    quotedChars room i t (raw ++ s) = quotedChars room (i + raw.length) (t ++ bytes) s := by
  induction unescapes generalizing i t with
  | nil => simp
  | @plain c raw bytes nonzero noQuote noEscape rest ih =>
      simp only [List.length_cons] at fits small ⊢
      have space : t.length < room := by omega
      rw [List.cons_append, quotedChars_plain nonzero noQuote noEscape, putChar_run space, Except.ok_bind,
        needInt_run (small.less (by omega)), Except.ok_bind,
        ih (i + 1) (t ++ [c]) (by simp; omega) (small.less (by omega)), List.append_assoc, List.singleton_append]
      congr 1
      omega
  | @escaped c raw bytes rest ih =>
      simp only [List.length_cons] at fits small ⊢
      have space : t.length < room := by omega
      rw [List.cons_append, List.cons_append, quotedChars_escaped, needInt_run (small.less (by omega)), Except.ok_bind,
        putChar_run space, Except.ok_bind, needInt_run (small.less (by omega)), Except.ok_bind,
        ih (i + 2) (t ++ [c]) (by simp; omega) (small.less (by omega)), List.append_assoc, List.singleton_append]
      congr 1
      omega

/-- The loop stops where its place is not an `int`. -/
theorem quotedChars_long {raw bytes : List UInt8} (unescapes : Unescapes raw bytes) (room i : Nat)
    (t s : List UInt8) (fits : t.length + bytes.length ≤ room) (small : IsInt i) (large : ¬ IsInt (i + raw.length)) :
    quotedChars room i t (raw ++ s) = .error (.abort .memory) := by
  induction unescapes generalizing i t with
  | nil => exact absurd small large
  | @plain c raw bytes nonzero noQuote noEscape rest ih =>
      simp only [List.length_cons] at fits large
      rw [List.cons_append, quotedChars_plain nonzero noQuote noEscape, putChar_run (by omega), Except.ok_bind]
      by_cases next : IsInt (i + 1)
      · rw [needInt_run next, Except.ok_bind]
        exact ih (i + 1) (t ++ [c]) (by simp; omega) next (by rwa [Nat.add_assoc, Nat.add_comm 1])
      · rw [needInt_stops next]
        rfl
  | @escaped c raw bytes rest ih =>
      simp only [List.length_cons] at fits large
      rw [List.cons_append, List.cons_append, quotedChars_escaped]
      by_cases next : IsInt (i + 1)
      · rw [needInt_run next, Except.ok_bind, putChar_run (by omega), Except.ok_bind]
        by_cases second : IsInt (i + 2)
        · rw [needInt_run second, Except.ok_bind]
          exact ih (i + 2) (t ++ [c]) (by simp; omega) second (by rwa [Nat.add_assoc, Nat.add_comm 2])
        · rw [needInt_stops second]
          rfl
      · rw [needInt_stops next]
        rfl

theorem scan_quote (s : List UInt8) : scan (34 :: s) = (do
    let length ← strlen (34 :: s)
    let (t, rest) ← quotedChars (length + 1) 1 [] s
    return (.quotedString (CString.at t), rest)) := by
  rw [scan, if_neg (by decide), if_neg (by decide), if_neg (by decide), if_pos rfl,
    scanQuotedString, if_pos rfl]
  cases strlen (34 :: s) with
  | error failure => rfl
  | ok length =>
      simp only [Except.ok_bind]
      cases quotedChars (length + 1) 1 [] s with
      | error failure => rfl
      | ok result => rfl

section Quoted
variable {raw bytes : List UInt8}

/-- The text between the quotes is copied, if its places are `int`s. -/
theorem scan_raw (unescapes : Unescapes raw bytes) (s : List UInt8) (length : Nat)
    (measured : strlen (34 :: (raw ++ s)) = .ok length) (room : bytes.length ≤ length)
    (small : IsInt (raw.length + 1)) :
    scan (34 :: (raw ++ s)) = (do
      let (t, rest) ← quotedChars (length + 1) (raw.length + 1) bytes s
      return (.quotedString (CString.at t), rest)) := by
  rw [scan_quote, measured, Except.ok_bind, quotedChars_run unescapes (length + 1) 1 [] s (by simp; omega)
    (small.less (by omega)), List.nil_append, Nat.add_comm 1]

theorem scan_raw_long (unescapes : Unescapes raw bytes) (s : List UInt8) (length : Nat)
    (measured : strlen (34 :: (raw ++ s)) = .ok length) (room : bytes.length ≤ length)
    (large : ¬ IsInt (raw.length + 1)) : scan (34 :: (raw ++ s)) = .error (.abort .memory) := by
  rw [scan_quote, measured, Except.ok_bind, quotedChars_long unescapes (length + 1) 1 [] s (by simp; omega)
    (by decide) (by rwa [Nat.add_comm])]
  rfl

/-- A complete quoted string is read without its quotes and escapes. -/
theorem scan_quoted (unescapes : Unescapes raw bytes) (s : List UInt8) (length : Nat)
    (measured : strlen (34 :: (raw ++ 34 :: s)) = .ok length) (room : bytes.length ≤ length)
    (small : IsInt (raw.length + 2)) :
    scan (34 :: (raw ++ 34 :: s)) = .ok (.quotedString (CString.at (bytes ++ [0])), s) := by
  rw [scan_raw unescapes _ length measured room (small.less (by omega)),
    quotedChars_close (length + 1) _ bytes s (by omega), needInt_run small]
  rfl

theorem scan_quoted_long (unescapes : Unescapes raw bytes) (s : List UInt8) (length : Nat)
    (measured : strlen (34 :: (raw ++ 34 :: s)) = .ok length) (room : bytes.length ≤ length)
    (large : ¬ IsInt (raw.length + 2)) : scan (34 :: (raw ++ 34 :: s)) = .error (.abort .memory) := by
  by_cases small : IsInt (raw.length + 1)
  · rw [scan_raw unescapes _ length measured room small,
      quotedChars_close (length + 1) _ bytes s (by omega), needInt_stops large]
    rfl
  · exact scan_raw_long unescapes _ length measured room small

end Quoted

theorem numberChars_run (chars : List UInt8) (n : NumberScan) (c : UInt8) (s : List UInt8)
    (inside : ∀ x ∈ chars, endsNumber x = false) (outside : endsNumber c = true) :
    numberChars n (chars ++ c :: s) =
      (chars.foldlM numberStep n).bind fun n => .ok (n, chars, c :: s) := by
  induction chars generalizing n with
  | nil => simp [numberChars, outside, pure, Except.pure, Except.bind]
  | cons x chars ih =>
      have here := inside x List.mem_cons_self
      rw [List.cons_append, numberChars, if_neg (by simp [here]), List.foldlM_cons]
      cases numberStep n x with
      | error failure => rfl
      | ok n =>
          rw [Except.ok_bind, Except.ok_bind, ih n fun y member => inside y (List.mem_cons_of_mem x member)]
          cases chars.foldlM numberStep n <;> rfl

theorem charToken_run (c : UInt8) (s : List UInt8) (token : HumanToken)
    (spelled : charToken c = some token) : scan (c :: s) = .ok (token, s) := by
  have options : c = 0 ∨ c = 123 ∨ c = 125 ∨ c = 44 ∨ c = 61 ∨ c = 64 := by
    unfold charToken at spelled
    by_contra other
    simp only [not_or] at other
    simp [other] at spelled
  rcases options with rfl | rfl | rfl | rfl | rfl | rfl <;>
  · obtain rfl := Option.some.inj spelled
    rfl

end Completeness

section Cases

/-- A text either closes its quote, or ends inside the string, or ends with an escape. -/
theorem quoted_split (t : List UInt8) (nulFree : 0 ∉ t) :
    (∃ raw bytes rest, t = raw ++ 34 :: rest ∧ Unescapes raw bytes) ∨ (∃ bytes, Unescapes t bytes) ∨
      ∃ raw bytes, t = raw ++ [92] ∧ Unescapes raw bytes := by
  have single : ∀ (c : UInt8) (t : List UInt8), c ≠ 0 → c ≠ 92 →
      ((∃ raw bytes rest, t = raw ++ 34 :: rest ∧ Unescapes raw bytes) ∨ (∃ bytes, Unescapes t bytes) ∨
        ∃ raw bytes, t = raw ++ [92] ∧ Unescapes raw bytes) →
      (∃ raw bytes rest, c :: t = raw ++ 34 :: rest ∧ Unescapes raw bytes) ∨
        (∃ bytes, Unescapes (c :: t) bytes) ∨ ∃ raw bytes, c :: t = raw ++ [92] ∧ Unescapes raw bytes := by
    intro c t nonzero noEscape cases
    by_cases quote : c = 34
    · exact Or.inl ⟨[], [], t, by rw [quote]; rfl, .nil⟩
    · rcases cases with ⟨raw, bytes, rest, rfl, plain⟩ | ⟨bytes, plain⟩ | ⟨raw, bytes, rfl, plain⟩
      · exact Or.inl ⟨c :: raw, c :: bytes, rest, rfl, .plain nonzero quote noEscape plain⟩
      · exact Or.inr (Or.inl ⟨c :: bytes, .plain nonzero quote noEscape plain⟩)
      · exact Or.inr (Or.inr ⟨c :: raw, c :: bytes, rfl, .plain nonzero quote noEscape plain⟩)
  induction t using List.twoStepInduction with
  | nil => exact Or.inr (Or.inl ⟨[], .nil⟩)
  | singleton c =>
      by_cases escape : c = 92
      · exact Or.inr (Or.inr ⟨[], [], by rw [escape]; rfl, .nil⟩)
      · exact single c [] (by rintro rfl; simp at nulFree) escape (Or.inr (Or.inl ⟨[], .nil⟩))
  | cons_cons c d t ih ih' =>
      simp only [List.mem_cons, not_or] at nulFree ih'
      by_cases escape : c = 92
      · subst escape
        rcases ih nulFree.2.2 with ⟨raw, bytes, rest, rfl, plain⟩ | ⟨bytes, plain⟩ | ⟨raw, bytes, rfl, plain⟩
        · exact Or.inl ⟨92 :: d :: raw, d :: bytes, rest, rfl, .escaped plain⟩
        · exact Or.inr (Or.inl ⟨d :: bytes, .escaped plain⟩)
        · exact Or.inr (Or.inr ⟨92 :: d :: raw, d :: bytes, rfl, .escaped plain⟩)
      · exact single c (d :: t) (Ne.symm nulFree.1) escape (ih' d ⟨nulFree.2.1, nulFree.2.2⟩)

theorem Unescapes.nulFree {raw bytes : List UInt8} (unescapes : Unescapes raw bytes)
    (clean : 0 ∉ raw) : 0 ∉ bytes := by
  induction unescapes with
  | nil => exact clean
  | plain nonzero _ _ _ ih =>
      simp only [List.mem_cons, not_or] at clean ⊢
      exact ⟨clean.1, ih clean.2⟩
  | escaped _ ih =>
      simp only [List.mem_cons, not_or] at clean ⊢
      exact ⟨clean.2.1, ih clean.2.2⟩

/-- A quote in front makes the token a quoted string, if there is one. -/
theorem scan_quote_token {count : Nat} {s rest : List UInt8} {token : HumanToken}
    (run : scan (blanks count ++ 34 :: s) = .ok (token, rest)) : ∃ lit, token = .quotedString lit := by
  rw [scan_blanks, scan_quote] at run
  cases measured : strlen (34 :: s) with
  | error failure => simp [measured] at run
  | ok length =>
      rw [measured, Except.ok_bind] at run
      cases copied : quotedChars (length + 1) 1 [] s with
      | error failure => simp [copied] at run
      | ok result =>
          simp only [copied, Except.ok_bind, pure, Except.pure, Except.ok.injEq, Prod.mk.injEq] at run
          exact ⟨_, run.1.symm⟩

section Overrun
variable {raw bytes : List UInt8}

theorem strlen_escape (nulFree : 0 ∉ raw) (beyond : List UInt8) :
    strlen (34 :: (raw ++ 92 :: 0 :: beyond)) = .ok (raw.length + 2) := by
  have run := strlen_run (34 :: (raw ++ [92])) beyond (by simpa using nulFree)
  rwa [List.cons_append, List.append_assoc, List.length_cons, List.length_append] at run

/-- An escape before the final NUL keeps this byte, and the loop goes on behind it. -/
theorem scan_escape (unescapes : Unescapes raw bytes) (nulFree : 0 ∉ raw) (small : IsInt (raw.length + 1))
    (beyond : List UInt8) :
    ∃ room, bytes.length + 1 < room ∧ scan (34 :: (raw ++ 92 :: 0 :: beyond)) = (do
      needInt (raw.length + 2)
      needInt (raw.length + 3)
      let (t, rest) ← quotedChars room (raw.length + 3) (bytes ++ [0]) beyond
      return (.quotedString (CString.at t), rest)) := by
  have measured := strlen_escape nulFree beyond
  have short := unescapes.length_le
  refine ⟨raw.length + 3, by omega, ?_⟩
  rw [scan_raw unescapes _ _ measured (by omega) small, quotedChars_escaped, putChar_run (by omega)]
  cases needInt (raw.length + 2) with
  | error failure => rfl
  | ok _ =>
      simp only [Except.ok_bind]
      cases needInt (raw.length + 3) <;> rfl

/-- An escape before the final NUL makes the scanner read behind it. -/
theorem scan_overrun (unescapes : Unescapes raw bytes) (nulFree : 0 ∉ raw) (small : IsInt (raw.length + 3))
    (count : Nat) : scan (blanks count ++ 34 :: raw ++ [92] ++ [0]) = .error (.abort .stringEnd) := by
  obtain ⟨room, -, run⟩ := scan_escape unescapes nulFree (small.less (by omega)) []
  rw [List.append_assoc, List.append_assoc, scan_blanks, List.cons_append, List.singleton_append, run,
    needInt_run (small.less (by omega)), needInt_run small]
  rfl

/-- The scanner stops in front of the NUL byte if the places up to there are too many. -/
theorem scan_overrun_long (unescapes : Unescapes raw bytes) (nulFree : 0 ∉ raw) (large : ¬ IsInt (raw.length + 3))
    (beyond : List UInt8) : scan (34 :: (raw ++ 92 :: 0 :: beyond)) = .error (.abort .memory) := by
  by_cases first : IsInt (raw.length + 1)
  · obtain ⟨room, -, run⟩ := scan_escape unescapes nulFree first beyond
    rw [run]
    by_cases second : IsInt (raw.length + 2)
    · rw [needInt_run second, needInt_stops large]
      rfl
    · rw [needInt_stops second]
      rfl
  · have short := unescapes.length_le
    exact scan_raw_long unescapes _ _ (strlen_escape nulFree beyond) (by omega) first

/-- From the last place on, the loop does not reach a quote. -/
theorem quotedChars_last {i : Nat} (last : ¬ IsInt (i + 1)) (room : Nat) (t s : List UInt8)
    (result : List UInt8 × List UInt8) : quotedChars room i t s ≠ .ok result := by
  intro run
  cases s with
  | nil => cases run
  | cons c s =>
      rw [quotedChars.eq_def] at run
      simp only [needInt_stops last] at run
      split_ifs at run
      · cases run
      · cases run
      · cases put : putChar room t c with
        | error failure =>
            rw [put] at run
            cases run
        | ok t =>
            rw [put] at run
            cases run

/-- The scanner reads no string whose end lies behind the last place. -/
theorem scan_overrun_last (unescapes : Unescapes raw bytes) (nulFree : 0 ∉ raw) (large : ¬ IsInt (raw.length + 4))
    (beyond : List UInt8) (result : HumanToken × List UInt8) :
    scan (34 :: (raw ++ 92 :: 0 :: beyond)) ≠ .ok result := by
  intro run
  by_cases small : IsInt (raw.length + 3)
  · obtain ⟨room, -, same⟩ := scan_escape unescapes nulFree (small.less (by omega)) beyond
    rw [same, needInt_run (small.less (by omega)), needInt_run small, Except.ok_bind, Except.ok_bind] at run
    cases copied : quotedChars room (raw.length + 3) (bytes ++ [0]) beyond with
    | error failure => simp [copied] at run
    | ok copy => exact quotedChars_last large _ _ _ copy copied
  · rw [scan_overrun_long unescapes nulFree small beyond] at run
    cases run

end Overrun

/-- What the scanner does with a text, whatever lies behind its NUL byte. -/
inductive Scans (t : List UInt8) : Prop
  | ended (count : Nat) (whole : t = blanks count)
      (run : ∀ beyond, scan (t ++ 0 :: beyond) = .ok (.eof, beyond))
  | reads (count : Nat) (token : HumanToken) (text rest : List UInt8)
      (whole : t = blanks count ++ text ++ rest) (spelled : TokenText token text)
      (bounds : Bounds token rest)
      (run : ∀ beyond, scan (t ++ 0 :: beyond) = .ok (token, rest ++ 0 :: beyond))
  | refuses (failure : Failure) (own : failure.IsOwn) (run : ∀ beyond, scan (t ++ 0 :: beyond) = .error failure)
  | overruns (count : Nat) (raw bytes : List UInt8) (whole : t = blanks count ++ 34 :: raw ++ [92])
      (unescapes : Unescapes raw bytes) (small : IsInt (raw.length + 3))

/-- Leading blanks do not matter. -/
theorem Scans.blank {t : List UInt8} (scans : Scans t) : Scans (32 :: t) := by
  have skip : ∀ s, scan (32 :: s) = scan s := scan_blanks 1
  cases scans with
  | ended count whole run =>
      exact .ended (count + 1) (by rw [whole]; rfl) fun beyond => (skip _).trans (run beyond)
  | reads count token text rest whole spelled bounds run =>
      exact .reads (count + 1) token text rest (by rw [whole]; rfl) spelled bounds
        fun beyond => (skip _).trans (run beyond)
  | refuses failure own run => exact .refuses failure own fun beyond => (skip _).trans (run beyond)
  | overruns count raw bytes whole unescapes small =>
      exact .overruns (count + 1) raw bytes (by rw [whole]; rfl) unescapes small

/-- A class of characters splits a text where it first ends. -/
theorem split_class (inside : UInt8 → Bool) (t : List UInt8) :
    ∃ chars rest, t = chars ++ rest ∧ (∀ c ∈ chars, inside c = true) ∧
      ∀ c ∈ rest.head?, inside c = false := by
  refine ⟨t.takeWhile inside, t.dropWhile inside, List.takeWhile_append_dropWhile.symm,
    fun c member => List.all_eq_true.mp List.all_takeWhile c member, ?_⟩
  intro c first
  have stops := List.head?_dropWhile_not inside t
  rw [first] at stops
  simpa using stops

/-- Behind the characters of a class stands another character, or the NUL byte. -/
theorem class_ends {inside : UInt8 → Bool} {rest : List UInt8} (outside : ∀ c ∈ rest.head?, inside c = false)
    (nul : inside 0 = false) (beyond : List UInt8) :
    ∃ c s, rest ++ 0 :: beyond = c :: s ∧ inside c = false := by
  cases rest with
  | nil => exact ⟨0, beyond, rfl, nul⟩
  | cons c rest => exact ⟨c, rest ++ 0 :: beyond, rfl, outside c rfl⟩

theorem scans_identifier (c : UInt8) (t : List UInt8) (start : isIdentStart c = true)
    (nulFree : 0 ∉ c :: t) : Scans (c :: t) := by
  obtain ⟨chars, rest, rfl, inside, outside⟩ := split_class isIdentChar t
  have clean : 0 ∉ c :: chars := fun member => nulFree (List.mem_append_left rest member)
  have ident : IdentText (c :: chars) := by
    refine ⟨by simp, by simpa using start, ?_⟩
    simpa using ⟨isIdentChar_of_start start, inside⟩
  by_cases small : IsInt ((c :: chars).length + 1)
  · refine .reads 0 (.identifier ⟨c :: chars, clean⟩) (c :: chars) rest rfl ⟨rfl, ident, small⟩ outside fun beyond => ?_
    obtain ⟨d, s, ahead, ends⟩ := class_ends outside rfl beyond
    rw [← List.cons_append, List.append_assoc, ahead]
    exact scan_identifier ⟨c :: chars, clean⟩ ident small d s ends
  · refine .refuses _ (Or.inr rfl) fun beyond => ?_
    obtain ⟨d, s, ahead, ends⟩ := class_ends outside rfl beyond
    rw [← List.cons_append, List.append_assoc, ahead]
    exact scan_identifier_long ⟨c :: chars, clean⟩ ident small d s ends

/-- The number scanner reports every character it refuses in the same way. -/
theorem numberChar_fails {n : NumberScan} {c : UInt8} {failure : Failure}
    (run : numberChar n c = .error failure) : failure = .code (.res 1) := by
  unfold numberChar at run
  split_ifs at run <;> cases run <;> rfl

theorem foldlM_numberChar_fails {chars : List UInt8} {n : NumberScan} {failure : Failure}
    (run : chars.foldlM numberChar n = .error failure) : failure = .code (.res 1) := by
  induction chars generalizing n with
  | nil => cases run
  | cons c chars ih =>
      rw [List.foldlM_cons] at run
      cases step : numberChar n c with
      | error other =>
          rw [step, Except.error_bind] at run
          cases run
          exact numberChar_fails step
      | ok n =>
          rw [step, Except.ok_bind] at run
          exact ih run

/-- The place counts the characters. -/
theorem numberChar_i {n next : NumberScan} {c : UInt8} (run : numberChar n c = .ok next) : next.i = n.i + 1 := by
  unfold numberChar at run
  split_ifs at run <;> cases run <;> rfl

theorem foldlM_numberChar_i {chars : List UInt8} {n final : NumberScan}
    (run : chars.foldlM numberChar n = .ok final) : final.i = n.i + chars.length := by
  induction chars generalizing n with
  | nil =>
      cases run
      rfl
  | cons c chars ih =>
      rw [List.foldlM_cons] at run
      cases step : numberChar n c with
      | error failure =>
          rw [step] at run
          cases run
      | ok next =>
          rw [step, Except.ok_bind] at run
          rw [ih run, numberChar_i step, List.length_cons]
          omega

/-- The loop counts no further than an `int` goes. -/
theorem foldlM_numberStep {chars : List UInt8} {n : NumberScan} (small : IsInt (n.i + chars.length)) :
    chars.foldlM numberStep n = chars.foldlM numberChar n := by
  induction chars generalizing n with
  | nil => rfl
  | cons c chars ih =>
      rw [List.length_cons] at small
      rw [List.foldlM_cons, List.foldlM_cons, numberStep]
      cases step : numberChar n c with
      | error failure => rfl
      | ok next =>
          have count := numberChar_i step
          rw [Except.ok_bind, Except.ok_bind, needInt_run (small.less (by omega)), Except.ok_bind]
          exact ih (by rwa [count, Nat.add_assoc, Nat.add_comm 1])

theorem foldlM_numberStep_long {chars : List UInt8} {n : NumberScan} (small : IsInt n.i)
    (large : ¬ IsInt (n.i + chars.length)) :
    ∃ failure : Failure, failure.IsOwn ∧ chars.foldlM numberStep n = .error failure := by
  induction chars generalizing n with
  | nil => exact absurd small large
  | cons c chars ih =>
      rw [List.length_cons] at large
      rw [List.foldlM_cons, numberStep]
      cases step : numberChar n c with
      | error failure => exact ⟨failure, Or.inl (numberChar_fails step), rfl⟩
      | ok next =>
          have count := numberChar_i step
          rw [Except.ok_bind]
          by_cases room : IsInt next.i
          · rw [needInt_run room]
            exact ih room (by rwa [count, Nat.add_assoc, Nat.add_comm 1])
          · rw [needInt_stops room]
            exact ⟨_, Or.inr rfl, rfl⟩

theorem numberToken_fails {n : NumberScan} {lit : CString} {failure : Failure}
    (run : numberToken n lit = .error failure) : failure = .code (.res 1) := by
  unfold numberToken at run
  split_ifs at run <;> cases run <;> rfl

/-- The literal of a number token is the text that the scanner has read. -/
theorem numberToken_spelled {n : NumberScan} {lit : CString} {token : HumanToken}
    (run : numberToken n lit = .ok token) (number : NumberText token lit) : TokenText token lit.bytes := by
  unfold numberToken at run
  split_ifs at run <;> cases run <;> exact ⟨rfl, number⟩

theorem numberToken_continues {n : NumberScan} {lit : CString} {token : HumanToken}
    (run : numberToken n lit = .ok token) : token.continues = fun c => !endsNumber c := by
  unfold numberToken at run
  split_ifs at run <;> cases run <;> rfl

/-- A digit starts no other token, and it does not end a number. -/
theorem isDigit_classes {c : UInt8} (digit : isDigit c = true) :
    c ≠ 32 ∧ isIdentStart c = false ∧ endsNumber c = false := by
  simp only [isDigit, Bool.and_eq_true, decide_eq_true_eq, UInt8.le_iff_toNat_le, UInt8.reduceToNat] at digit
  simp only [isIdentStart, isAlpha, endsNumber, ne_eq, Bool.or_eq_false_iff, Bool.and_eq_false_iff,
    decide_eq_false_iff_not, beq_eq_false_iff_ne, UInt8.le_iff_toNat_le, ← UInt8.toNat_inj,
    UInt8.reduceToNat]
  omega

theorem scan_digit (c : UInt8) (s : List UInt8) (digit : isDigit c = true) :
    scan (c :: s) = scanNumberOrTimestamp (c :: s) := by
  obtain ⟨noBlank, noIdent, -⟩ := isDigit_classes digit
  rw [scan, if_neg noBlank, if_neg (by simp [noIdent]), if_pos digit]

/-- A number is read up to a blank, an at sign or the end. -/
theorem scan_number (lit : CString) (digit : ∀ c ∈ lit.bytes.head?, isDigit c = true)
    (nonempty : lit.bytes ≠ []) (inside : ∀ c ∈ lit.bytes, endsNumber c = false) (c : UInt8) (s : List UInt8)
    (outside : endsNumber c = true) :
    scan (lit.bytes ++ c :: s) = (do
      let n ← lit.bytes.foldlM numberStep ⟨0, false, 0, false, 0⟩
      let token ← numberToken n lit
      needInt (n.i + 1)
      return (token, c :: s)) := by
  obtain ⟨first, chars, whole⟩ := List.exists_cons_of_ne_nil nonempty
  have starts := digit first (by rw [whole]; rfl)
  have loop := numberChars_run lit.bytes ⟨0, false, 0, false, 0⟩ c s inside outside
  have entry : scan (lit.bytes ++ c :: s) = scanNumberOrTimestamp (lit.bytes ++ c :: s) := by
    rw [whole]
    exact scan_digit first _ starts
  rw [entry, scanNumberOrTimestamp, loop]
  cases lit.bytes.foldlM numberStep ⟨0, false, 0, false, 0⟩ with
  | error failure => rfl
  | ok n =>
      change (numberToken n (CString.at lit.bytes) >>= fun token => _) = _
      rw [CString.at_bytes]
      rfl

/-- A number token is read up to the character that ends it. -/
theorem scan_numberText {token : HumanToken} {lit : CString} (number : NumberText token lit) (count : Nat)
    (c : UInt8) (s : List UInt8) (outside : endsNumber c = true) :
    scan (blanks count ++ lit.bytes ++ c :: s) = .ok (token, c :: s) := by
  obtain ⟨digit, nonempty, inside, spelled, small⟩ := number
  rw [List.append_assoc, scan_blanks, scan_number lit digit nonempty inside c s outside,
    foldlM_numberStep (small.less (by simp))]
  cases folded : lit.bytes.foldlM numberChar ⟨0, false, 0, false, 0⟩ with
  | error failure => simp [folded] at spelled
  | ok n =>
      have count := foldlM_numberChar_i folded
      rw [folded, Except.ok_bind] at spelled
      rw [Except.ok_bind, spelled, Except.ok_bind, count, needInt_run (by rwa [Nat.zero_add])]
      rfl

theorem scans_number (c : UInt8) (t : List UInt8) (digit : isDigit c = true) (nulFree : 0 ∉ c :: t) :
    Scans (c :: t) := by
  obtain ⟨chars, rest, whole, inside, outside⟩ := split_class (fun c => !endsNumber c) (c :: t)
  have clean : 0 ∉ chars := fun member => nulFree (whole ▸ List.mem_append_left rest member)
  have nonempty : chars ≠ [] := by
    rintro rfl
    have stops := outside c (by rw [List.nil_append] at whole; rw [← whole]; rfl)
    simp [(isDigit_classes digit).2.2] at stops
  have first : ∀ x ∈ chars.head?, isDigit x = true := by
    cases chars with
    | nil => exact absurd rfl nonempty
    | cons d chars =>
        obtain ⟨rfl, -⟩ := List.cons.inj whole
        simpa using digit
  have kept : ∀ x ∈ chars, endsNumber x = false := fun x member => by simpa using inside x member
  -- Behind the number stands a blank, an at sign or the NUL byte.
  have behind : ∀ beyond, ∃ d s, rest ++ 0 :: beyond = d :: s ∧ endsNumber d = true := by
    intro beyond
    obtain ⟨d, s, ahead, ends⟩ := class_ends outside rfl beyond
    exact ⟨d, s, ahead, by simpa using ends⟩
  have run := fun d s => scan_number ⟨chars, clean⟩ first nonempty kept d s
  have refused : ∀ failure : Failure, failure.IsOwn → (∀ (d : UInt8) (s : List UInt8), (do
      let n ← chars.foldlM numberStep ⟨0, false, 0, false, 0⟩
      let token ← numberToken n ⟨chars, clean⟩
      needInt (n.i + 1)
      return (token, d :: s)) = .error failure) → Scans (c :: t) := by
    intro failure own fails
    refine .refuses failure own fun beyond => ?_
    obtain ⟨d, s, ahead, ends⟩ := behind beyond
    rw [whole, List.append_assoc, ahead]
    exact (run d s ends).trans (fails d s)
  by_cases counted : IsInt (0 + chars.length)
  · rw [foldlM_numberStep counted] at run refused
    cases folded : chars.foldlM numberChar ⟨0, false, 0, false, 0⟩ with
    | error failure =>
        exact refused failure (Or.inl (foldlM_numberChar_fails folded)) fun d s => by rw [folded]; rfl
    | ok n =>
        have count := foldlM_numberChar_i folded
        rw [folded] at refused
        cases kind : numberToken n ⟨chars, clean⟩ with
        | error failure =>
            exact refused failure (Or.inl (numberToken_fails kind)) fun d s => by rw [Except.ok_bind, kind]; rfl
        | ok token =>
            by_cases small : IsInt (chars.length + 1)
            · have number : NumberText token ⟨chars, clean⟩ :=
                ⟨first, nonempty, kept, by rw [folded, Except.ok_bind, kind], small⟩
              refine .reads 0 token chars rest whole (numberToken_spelled kind number) ?_ fun beyond => ?_
              · rw [Bounds, numberToken_continues kind]
                exact outside
              · obtain ⟨d, s, ahead, ends⟩ := behind beyond
                rw [whole, List.append_assoc, ahead]
                exact scan_numberText number 0 d s ends
            · refine refused _ (Or.inr rfl) fun d s => ?_
              rw [Except.ok_bind, kind, Except.ok_bind, count, needInt_stops (by rwa [Nat.zero_add])]
              rfl
  · obtain ⟨failure, own, fails⟩ := @foldlM_numberStep_long chars ⟨0, false, 0, false, 0⟩ (by decide) counted
    exact refused failure own fun d s => by rw [fails]; rfl

theorem scans_quoted (t : List UInt8) (nulFree : 0 ∉ t) : Scans (34 :: t) := by
  rcases quoted_split t nulFree with ⟨raw, bytes, rest, rfl, plain⟩ | ⟨bytes, plain⟩ |
    ⟨raw, bytes, rfl, plain⟩
  · simp only [List.mem_append, List.mem_cons, not_or] at nulFree
    have clean := plain.nulFree nulFree.1
    have measured : ∀ beyond, strlen (34 :: (raw ++ 34 :: (rest ++ 0 :: beyond))) =
        .ok (34 :: (raw ++ 34 :: rest)).length := by
      intro beyond
      simpa using strlen_run (34 :: (raw ++ 34 :: rest)) beyond (by simpa using nulFree)
    have short := plain.length_le
    by_cases small : IsInt (raw.length + 2)
    · refine .reads 0 (.quotedString ⟨bytes, clean⟩) (34 :: raw ++ [34]) rest (by simp [blanks])
        ⟨raw, rfl, plain, small⟩ (by simp [Bounds, HumanToken.continues]) fun beyond => ?_
      have run := scan_quoted plain _ _ (measured beyond) (by simp; omega) small
      rw [CString.at_terminated ⟨bytes, clean⟩ []] at run
      simpa using run
    · refine .refuses _ (Or.inr rfl) fun beyond => ?_
      have run := scan_quoted_long plain _ _ (measured beyond) (by simp; omega) small
      simpa using run
  · have measured : ∀ beyond, strlen (34 :: (t ++ 0 :: beyond)) = .ok (34 :: t).length :=
      fun beyond => strlen_run (34 :: t) beyond (by simpa using nulFree)
    have short := plain.length_le
    by_cases small : IsInt (t.length + 1)
    · refine .refuses _ (Or.inl rfl) fun beyond => ?_
      rw [List.cons_append, scan_raw plain _ _ (measured beyond) (by simp; omega) small]
      cases beyond <;> rfl
    · exact .refuses _ (Or.inr rfl) fun beyond =>
        scan_raw_long plain _ _ (measured beyond) (by simp; omega) small
  · have clean : 0 ∉ raw := fun member => nulFree (List.mem_append_left _ member)
    by_cases small : IsInt (raw.length + 3)
    · exact .overruns 0 raw bytes rfl plain small
    · refine .refuses _ (Or.inr rfl) fun beyond => ?_
      simpa using scan_overrun_long plain clean small beyond

/-- Every text has exactly these cases. -/
theorem scans (t : List UInt8) (nulFree : 0 ∉ t) : Scans t := by
  induction t with
  | nil => exact .ended 0 rfl fun beyond => rfl
  | cons c t ih =>
      have clean := nulFree
      simp only [List.mem_cons, not_or] at clean
      by_cases blank : c = 32
      · subst blank
        exact (ih clean.2).blank
      by_cases start : isIdentStart c = true
      · exact scans_identifier c t start nulFree
      by_cases digit : isDigit c = true
      · exact scans_number c t digit nulFree
      by_cases quote : c = 34
      · subst quote
        exact scans_quoted t clean.2
      cases spelled : charToken c with
      | none =>
          refine .refuses _ (Or.inl rfl) fun beyond => ?_
          rw [List.cons_append, scan, if_neg blank, if_neg start, if_neg digit, if_neg quote]
          simp only [spelled]
          rfl
      | some token =>
          refine .reads 0 token [c] t rfl ?_ ?_ fun beyond => charToken_run c _ token spelled
          · unfold charToken at spelled
            split_ifs at spelled <;> cases spelled <;> simp_all [TokenText]
          · unfold charToken at spelled
            split_ifs at spelled <;> cases spelled <;> simp [Bounds, HumanToken.continues]

end Cases

end Menoetius
