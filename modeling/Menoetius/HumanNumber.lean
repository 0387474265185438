import Menoetius.HumanToken

/-
This file says which texts the scanner takes for numbers and for timestamps.
-/

namespace Menoetius
open Ctype

/-- Digits with an optional fraction. -/
def StrictNumber (v : List UInt8) : Prop :=
  ∃ digits more, digits ≠ [] ∧ (∀ c ∈ digits, isDigit c = true) ∧ (∀ c ∈ more, isDigit c = true) ∧
    (v = digits ∨ v = digits ++ 46 :: more)

/-- The shape `dddd-dd-ddTdd:dd:dd`. -/
def StrictTimestamp (w : List UInt8) : Prop :=
  w.length = 19 ∧ ∀ (k : Nat) (c : UInt8), w[k]? = some c →
    if k = 4 ∨ k = 7 then c = 45 else if k = 10 then c = 84 else if k = 13 ∨ k = 16 then c = 58
    else isDigit c = true

/-- The scanner takes any text for a number that starts with a digit, has at most one point and none
of the separators of a timestamp. -/
def LooseNumber (v : List UInt8) : Prop :=
  v ≠ [] ∧ (∀ c ∈ v.head?, isDigit c = true) ∧ v.count 46 ≤ 1 ∧ 45 ∉ v ∧ 84 ∉ v ∧ 58 ∉ v

instance (v : List UInt8) : Decidable (LooseNumber v) := inferInstanceAs (Decidable (_ ∧ _))

/-- The scanner takes any text for a timestamp that starts with a digit, has no point and has the
separators at their places and nowhere else. -/
def LooseTimestamp (w : List UInt8) : Prop :=
  w.length = 19 ∧ (∀ c ∈ w.head?, isDigit c = true) ∧ 46 ∉ w ∧ ∀ (k : Nat) (c : UInt8), w[k]? = some c →
    (c = 45 ↔ k = 4 ∨ k = 7) ∧ (c = 84 ↔ k = 10) ∧ (c = 58 ↔ k = 13 ∨ k = 16)

/-- A digit is none of the separators. -/
theorem isDigit_ne {c : UInt8} (digit : isDigit c = true) : c ≠ 45 ∧ c ≠ 46 ∧ c ≠ 58 ∧ c ≠ 84 := by
  refine ⟨?_, ?_, ?_, ?_⟩ <;> rintro rfl <;> exact absurd digit (by decide)

theorem StrictNumber.loose {v : List UInt8} (strict : StrictNumber v) : LooseNumber v := by
  obtain ⟨digits, more, nonempty, front, back, shape⟩ := strict
  have none : ∀ {l : List UInt8} {c : UInt8}, (∀ x ∈ l, isDigit x = true) → isDigit c = false → c ∉ l := by
    intro l c all outside member
    rw [all c member] at outside
    cases outside
  obtain ⟨first, rest, rfl⟩ := List.exists_cons_of_ne_nil nonempty
  rcases shape with rfl | rfl
  · exact ⟨by simp, fun c member => front c (List.mem_of_mem_head? member),
      by rw [List.count_eq_zero_of_not_mem (none front rfl)]; decide, none front rfl, none front rfl,
      none front rfl⟩
  · have count : ((first :: rest) ++ 46 :: more).count 46 = 1 := by
      rw [List.count_append, List.count_cons_self, List.count_eq_zero_of_not_mem (none front rfl),
        List.count_eq_zero_of_not_mem (none back rfl)]
    refine ⟨by simp, fun c member => front c (List.mem_of_mem_head? (by simpa using member)), count.le, ?_, ?_, ?_⟩
    all_goals
      simp only [List.mem_append, List.mem_cons, not_or]
      refine ⟨?_, by decide, none back rfl⟩
      simpa using none front rfl

theorem StrictTimestamp.loose {w : List UInt8} (strict : StrictTimestamp w) : LooseTimestamp w := by
  obtain ⟨length, shape⟩ := strict
  refine ⟨length, fun c first => ?_, fun member => ?_, fun k c here => ?_⟩
  · have start := shape 0 c (by rwa [List.head?_eq_getElem?] at first)
    simpa using start
  · obtain ⟨k, here⟩ := List.mem_iff_getElem?.mp member
    have char := shape k 46 here
    split_ifs at char <;> revert char <;> decide
  · have char := shape k c here
    split_ifs at char with hyphen letter colon
    · subst char
      refine ⟨by simp [hyphen], ?_, ?_⟩ <;> simp <;> omega
    · subst char
      refine ⟨?_, by simp [letter], ?_⟩ <;> simp <;> omega
    · subst char
      refine ⟨?_, ?_, by simp [colon]⟩ <;> simp <;> omega
    · obtain ⟨one, two, three, four⟩ := isDigit_ne char
      simp [one, three, four, hyphen, letter, colon]

/-- The counters of the loop after some characters. -/
def NumberScan.after (n : NumberScan) (chars : List UInt8) : NumberScan where
  i := n.i + chars.length
  decimalFound := n.decimalFound || decide (46 ∈ chars)
  hyphensFound := n.hyphensFound + chars.count 45
  tFound := n.tFound || decide (84 ∈ chars)
  colonsFound := n.colonsFound + chars.count 58

/-- What one character of the loop requires and changes. -/
theorem numberChar_ok {n next : NumberScan} {c : UInt8} (run : numberChar n c = .ok next) :
    next = n.after [c] ∧
      (c = 46 → n.decimalFound = false ∧ n.hyphensFound = 0) ∧
      (c = 45 → n.decimalFound = false ∧ (n.hyphensFound = 0 ∧ n.i = 4 ∨ n.hyphensFound = 1 ∧ n.i = 7)) ∧
      (c = 84 → n.tFound = false ∧ n.i = 10 ∧ n.hyphensFound = 2) ∧
      (c = 58 → n.decimalFound = false ∧ n.tFound = true ∧
        (n.colonsFound = 0 ∧ n.i = 13 ∨ n.colonsFound = 1 ∧ n.i = 16)) := by
  unfold numberChar at run
  split_ifs at run with point blocked hyphen decimal place letter wrong colon early place'
  all_goals cases run
  · subst point
    simp only [not_or, Bool.not_eq_true, ne_eq, not_not] at blocked
    simp [NumberScan.after, blocked]
  · subst hyphen
    simp only [Bool.not_eq_true] at decimal
    simp [NumberScan.after, decimal, place]
  · subst letter
    simp only [not_or, Bool.not_eq_true, ne_eq, not_not] at wrong
    simp [NumberScan.after, wrong]
  · subst colon
    simp only [not_or, Bool.not_eq_true] at early
    simp [NumberScan.after, early, place']
  · simp [NumberScan.after, point, hyphen, letter, colon, Ne.symm point, Ne.symm letter]

theorem NumberScan.after_cons (n : NumberScan) (c : UInt8) (chars : List UInt8) :
    (n.after [c]).after chars = n.after (c :: chars) := by
  simp only [NumberScan.after, List.length_cons, List.length_nil, List.mem_cons, List.count_cons,
    List.count_nil, Bool.or_assoc, NumberScan.mk.injEq, List.not_mem_nil, or_false]
  refine ⟨by omega, ?_, by omega, ?_, by omega⟩ <;> simp

/-- The counters of the loop agree with each other. -/
structure NumberScan.Sound (n : NumberScan) : Prop where
  point : n.decimalFound = true → n.hyphensFound = 0
  letter : n.tFound = true → n.hyphensFound = 2
  colon : n.colonsFound ≠ 0 → n.tFound = true

theorem numberChar_sound {n next : NumberScan} {c : UInt8} (sound : n.Sound)
    (run : numberChar n c = .ok next) : next.Sound := by
  obtain ⟨rfl, point, hyphen, letter, colon⟩ := numberChar_ok run
  obtain ⟨noHyphen, twoHyphens, found⟩ := sound
  refine ⟨?_, ?_, ?_⟩
  · by_cases first : c = 46
    · simpa [NumberScan.after, first] using (point first).2
    · by_cases second : c = 45
      · simp [NumberScan.after, second, (hyphen second).1]
      · simpa [NumberScan.after, Ne.symm first, second] using noHyphen
  · by_cases first : c = 84
    · simpa [NumberScan.after, first] using (letter first).2.2
    · by_cases second : c = 45
      · have few := (hyphen second).2
        simp only [NumberScan.after, second, List.count_singleton_self, List.mem_singleton]
        intro t
        have two := twoHyphens (by simpa using t)
        omega
      · simpa [NumberScan.after, Ne.symm first, second] using twoHyphens
  · by_cases first : c = 58
    · simp [NumberScan.after, (colon first).2.1]
    · intro some
      have before := found (by simpa [NumberScan.after, first] using some)
      simp [NumberScan.after, before]

/-- What a successful run of the loop says about its characters. -/
theorem foldlM_numberChar_ok {chars : List UInt8} {n final : NumberScan} (sound : n.Sound)
    (run : chars.foldlM numberChar n = .ok final) :
    final = n.after chars ∧ final.Sound ∧
      chars.count 46 + n.decimalFound.toNat ≤ 1 ∧
      ∀ (k : Nat) (c : UInt8), chars[k]? = some c → (c = 45 → n.i + k = 4 ∨ n.i + k = 7) ∧
        (c = 84 → n.i + k = 10) ∧ (c = 58 → n.i + k = 13 ∨ n.i + k = 16) := by
  induction chars generalizing n with
  | nil =>
      cases run
      refine ⟨by simp [NumberScan.after], sound, by simpa using Bool.toNat_le _, by simp⟩
  | cons c chars ih =>
      rw [List.foldlM_cons] at run
      cases step : numberChar n c with
      | error failure =>
          rw [step] at run
          cases run
      | ok next =>
          rw [step, Except.ok_bind] at run
          obtain ⟨rfl, point, hyphen, letter, colon⟩ := numberChar_ok step
          obtain ⟨whole, final, points, places⟩ := ih (numberChar_sound sound step) run
          refine ⟨whole.trans (n.after_cons c chars), final, ?_, fun k d here => ?_⟩
          · by_cases first : c = 46
            · have before := (point first).1
              simp [NumberScan.after, first, before] at points ⊢
              omega
            · simpa [NumberScan.after, Ne.symm first, first] using points
          · cases k with
            | zero =>
                obtain rfl : c = d := by simpa using here
                exact ⟨fun equal => by have := (hyphen equal).2; omega, fun equal => (letter equal).2.1,
                  fun equal => by have := (colon equal).2.2; omega⟩
            | succ k =>
                have place := places k d (by simpa using here)
                simp only [NumberScan.after, List.length_singleton] at place
                rw [show n.i + (k + 1) = n.i + 1 + k by omega]
                exact place

/-- The loop accepts characters without separators and with one point at most. -/
theorem foldlM_number {chars : List UInt8} (noHyphen : 45 ∉ chars) (noLetter : 84 ∉ chars)
    (noColon : 58 ∉ chars) (n : NumberScan) (hyphens : n.hyphensFound = 0)
    (points : chars.count 46 + n.decimalFound.toNat ≤ 1) :
    chars.foldlM numberChar n = .ok (n.after chars) := by
  induction chars generalizing n with
  | nil => simp [NumberScan.after, pure, Except.pure]
  | cons c chars ih =>
      simp only [List.mem_cons, not_or] at noHyphen noLetter noColon
      have step : numberChar n c = .ok (n.after [c]) := by
        by_cases point : c = 46
        · have first : n.decimalFound = false := by
            cases found : n.decimalFound with
            | false => rfl
            | true => simp [point, found] at points
          simp [numberChar, NumberScan.after, point, first, hyphens, pure, Except.pure]
        · simp [numberChar, NumberScan.after, point, Ne.symm noHyphen.1, Ne.symm noLetter.1,
            Ne.symm noColon.1, Ne.symm point, noLetter.1, pure, Except.pure]
      rw [List.foldlM_cons, step, Except.ok_bind, ih noHyphen.2 noLetter.2 noColon.2, n.after_cons]
      · simp [NumberScan.after, hyphens, Ne.symm noHyphen.1]
      · by_cases point : c = 46
        · have first : n.decimalFound = false := by
            cases found : n.decimalFound with
            | false => rfl
            | true => simp [point, found] at points
          simp [NumberScan.after, point, first] at points ⊢
          omega
        · simpa [NumberScan.after, Ne.symm point, point] using points

/-- The counters in front of a place of a timestamp. -/
def stampScan (k : Nat) : NumberScan where
  i := k
  decimalFound := false
  hyphensFound := if k ≤ 4 then 0 else if k ≤ 7 then 1 else 2
  tFound := decide (10 < k)
  colonsFound := if k ≤ 13 then 0 else if k ≤ 16 then 1 else 2

theorem numberChar_stamp (k : Nat) (c : UInt8) (noPoint : c ≠ 46) (hyphen : c = 45 ↔ k = 4 ∨ k = 7)
    (letter : c = 84 ↔ k = 10) (colon : c = 58 ↔ k = 13 ∨ k = 16) :
    numberChar (stampScan k) c = .ok (stampScan (k + 1)) := by
  by_cases first : c = 45
  · rcases hyphen.mp first with rfl | rfl <;> subst first <;> rfl
  · by_cases second : c = 84
    · obtain rfl := letter.mp second
      subst second
      rfl
    · by_cases third : c = 58
      · rcases colon.mp third with rfl | rfl <;> subst third <;> rfl
      · simp only [first, second, third, false_iff, not_or] at hyphen letter colon
        simp only [numberChar, noPoint, first, second, third, if_false, pure, Except.pure, stampScan,
          Except.ok.injEq, NumberScan.mk.injEq, true_and]
        refine ⟨?_, ?_, ?_⟩
        · split_ifs <;> omega
        · rw [decide_eq_decide]
          omega
        · split_ifs <;> omega

/-- The loop accepts the separators of a timestamp at their places. -/
theorem foldlM_stamp {chars : List UInt8} (noPoint : 46 ∉ chars) :
    ∀ k, (∀ (j : Nat) (c : UInt8), chars[j]? = some c → (c = 45 ↔ k + j = 4 ∨ k + j = 7) ∧
      (c = 84 ↔ k + j = 10) ∧ (c = 58 ↔ k + j = 13 ∨ k + j = 16)) →
      chars.foldlM numberChar (stampScan k) = .ok (stampScan (k + chars.length)) := by
  induction chars with
  | nil => exact fun k _ => rfl
  | cons c chars ih =>
      intro k places
      simp only [List.mem_cons, not_or] at noPoint
      have here := places 0 c rfl
      rw [List.foldlM_cons, numberChar_stamp k c (Ne.symm noPoint.1) here.1 here.2.1 here.2.2,
        Except.ok_bind, ih noPoint.2 (k + 1), List.length_cons]
      · congr 2
        omega
      · intro j d at'
        have there := places (j + 1) d (by simpa using at')
        rwa [← Nat.add_assoc, Nat.add_right_comm] at there

/-- A character with one possible place occurs at most once. -/
theorem count_le_one {chars : List UInt8} {c : UInt8} {place : Nat}
    (only : ∀ k : Nat, chars[k]? = some c → k = place) : chars.count c ≤ 1 := by
  induction chars generalizing place with
  | nil => simp
  | cons first chars ih =>
      by_cases here : first = c
      · have zero := only 0 (by simp [here])
        have none : c ∉ chars := by
          intro member
          obtain ⟨k, found⟩ := List.mem_iff_getElem?.mp member
          have later := only (k + 1) (by simpa using found)
          omega
        rw [here, List.count_cons_self, List.count_eq_zero_of_not_mem none]
      · rw [List.count_cons_of_ne here]
        refine @ih (place - 1) ?_
        intro k found
        have later := only (k + 1) (by simpa using found)
        omega

/-- A character that occurs twice, at two possible places, is at both. -/
theorem at_both {chars : List UInt8} {c : UInt8} {first second : Nat}
    (places : ∀ k : Nat, chars[k]? = some c → k = first ∨ k = second) (twice : chars.count c = 2) {k : Nat}
    {d : UInt8} (here : chars[k]? = some d) (place : k = first ∨ k = second) : d = c := by
  by_contra other
  have missing : chars[k]? ≠ some c := by
    rw [here]
    simpa using other
  have few : chars.count c ≤ 1 := by
    rcases place with rfl | rfl
    · exact count_le_one fun j found => (places j found).resolve_left fun equal => missing (equal ▸ found)
    · exact count_le_one fun j found => (places j found).resolve_right fun equal => missing (equal ▸ found)
  omega

theorem start_sound : NumberScan.Sound ⟨0, false, 0, false, 0⟩ := ⟨by simp, by simp, by simp⟩

/-- The scanner reads a number exactly where the loose form stands, if its length is an `int`. -/
theorem numberText_iff (lit : CString) (inside : ∀ c ∈ lit.bytes, endsNumber c = false) :
    (∃ token, (token = .int lit ∨ token = .float lit) ∧ NumberText token lit) ↔
      LooseNumber lit.bytes ∧ IsInt (lit.bytes.length + 1) := by
  constructor
  · rintro ⟨token, kind, digit, nonempty, -, run, small⟩
    cases folded : lit.bytes.foldlM numberChar ⟨0, false, 0, false, 0⟩ with
    | error failure => simp [folded] at run
    | ok n =>
        rw [folded, Except.ok_bind] at run
        obtain ⟨whole, sound, points, -⟩ := foldlM_numberChar_ok start_sound folded
        have plain : n.hyphensFound = 0 ∧ n.tFound = false ∧ n.colonsFound = 0 := by
          unfold numberToken at run
          split_ifs at run with point mixed
          · have hyphens := sound.point point
            have letter : n.tFound = false := by
              by_contra found
              have two := sound.letter (by simpa using found)
              omega
            refine ⟨hyphens, letter, ?_⟩
            by_contra found
            exact absurd (sound.colon found) (by simp [letter])
          · cases run
            rcases kind with kind | kind <;> cases kind
          · simp only [not_or, not_not, Bool.not_eq_true] at mixed
            exact mixed
        subst whole
        simp only [NumberScan.after, Nat.zero_add, Bool.false_or, decide_eq_false_iff_not,
          List.count_eq_zero] at plain
        exact ⟨⟨nonempty, digit, by simpa using points, plain⟩, small⟩
  · rintro ⟨⟨nonempty, digit, points, noHyphen, noLetter, noColon⟩, small⟩
    have folded := foldlM_number noHyphen noLetter noColon ⟨0, false, 0, false, 0⟩ rfl (by simpa using points)
    by_cases point : 46 ∈ lit.bytes
    · refine ⟨.float lit, Or.inr rfl, digit, nonempty, inside, ?_, small⟩
      rw [folded, Except.ok_bind]
      simp [numberToken, NumberScan.after, point, pure, Except.pure]
    · refine ⟨.int lit, Or.inl rfl, digit, nonempty, inside, ?_, small⟩
      rw [folded, Except.ok_bind]
      simp [numberToken, NumberScan.after, point, noLetter, List.count_eq_zero_of_not_mem noHyphen,
        List.count_eq_zero_of_not_mem noColon, pure, Except.pure]

/-- The scanner reads a timestamp exactly where the loose form stands. -/
theorem timestampText_iff (lit : CString) (inside : ∀ c ∈ lit.bytes, endsNumber c = false) :
    NumberText (.timestamp lit) lit ↔ LooseTimestamp lit.bytes := by
  constructor
  · rintro ⟨digit, nonempty, -, run, -⟩
    cases folded : lit.bytes.foldlM numberChar ⟨0, false, 0, false, 0⟩ with
    | error failure => simp [folded] at run
    | ok n =>
        rw [folded, Except.ok_bind] at run
        obtain ⟨rfl, sound, points, places⟩ := foldlM_numberChar_ok start_sound folded
        unfold numberToken at run
        split_ifs at run with point mixed wrong short
        all_goals cases run
        simp only [NumberScan.after, Nat.zero_add, Bool.false_or, decide_eq_true_eq, not_or, not_not,
          ne_eq] at point wrong short places
        refine ⟨short, digit, point, fun k c here => ?_⟩
        refine ⟨⟨fun equal => (places k c here).1 equal, fun place => ?_⟩,
          ⟨fun equal => (places k c here).2.1 equal, fun place => ?_⟩,
          ⟨fun equal => (places k c here).2.2 equal, fun place => ?_⟩⟩
        · exact at_both (fun j found => (places j 45 found).1 rfl) wrong.1 here place
        · obtain ⟨j, found⟩ := List.mem_iff_getElem?.mp wrong.2.1
          have same := (places j 84 found).2.1 rfl
          rw [same, ← place, here] at found
          exact Option.some.inj found
        · exact at_both (fun j found => (places j 58 found).2.2 rfl) wrong.2.2 here place
  · rintro ⟨length, digit, noPoint, places⟩
    have nonempty : lit.bytes ≠ [] := by
      intro empty
      rw [empty] at length
      cases length
    have folded := foldlM_stamp noPoint 0 (by simpa using places)
    refine ⟨digit, nonempty, inside, ?_, by rw [length]; decide⟩
    rw [show (⟨0, false, 0, false, 0⟩ : NumberScan) = stampScan 0 from rfl, folded, length, Except.ok_bind]
    rfl

end Menoetius
